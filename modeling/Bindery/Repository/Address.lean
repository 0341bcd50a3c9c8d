import Bindery.Text.Title
import Bindery.Url

/-!
# Addresses of repositories

From the address that a repository is cloned from follow the address of its web page, its name, and
the links to its files.
-/

namespace Bindery.Repository

open Text (bytes)

/-- The address of the web page of a repository. -/
def webPage (address : Bytes) : Bytes :=
  let u := Text.trim address
  let u :=
    match Text.afterStart? "ssh://git@" u with
    | some rest => bytes "https://" ++ rest
    | none =>
      match (Text.afterStart? "git@" u).bind (Text.cutByte? ':') with
      | some (host, path) => bytes "https://" ++ host ++ "/" ++ path
      | none =>
        match Text.afterStart? "http://" u with
        | some rest => bytes "https://" ++ rest
        | none => u
  Text.withoutEnd ".git" (Text.withoutEnd "/" u)

/-- The last two components of the path of a repository: its owner and its name. -/
def shortName (address : Bytes) : Bytes :=
  let page := webPage address
  let path :=
    match Url.parse? page with
    | some u => if u.host.isEmpty then page else u.path
    | none => page
  let parts := (Text.splitOn 47 path).filter (!·.isEmpty)
  Text.joinWith "/" (parts.drop (parts.length - 2))

/-- The words between the address of a repository and a commit in links to its files, which depend on
the host. -/
def blobWords (host : Bytes) : Bytes :=
  if Text.contains "gitlab" host then "/-/blob/"
  else if Text.contains "gitea" host || Text.startsWith "git." host then "/src/commit/"
  else "/blob/"

/-- The link to a file of a repository at a commit. -/
def fileLink (address commit path : Bytes) : Bytes :=
  let page := webPage address
  let host := ((Url.parse? page).map fun u => Text.lower u.host).getD []
  page ++ blobWords host ++ commit ++ "/" ++ Text.withoutStart "/" path

end Bindery.Repository
