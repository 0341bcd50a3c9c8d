import Bindery.FileTree

/-!
# Credentials

How the program identifies itself to the host of a repository.
-/

namespace Bindery.Repository

open Text (bytes)

/-- The configured credentials. -/
structure Credentials where
  type : Bytes := []
  token : Bytes := []
  username : Bytes := []
  password : Bytes := []
  keyPath : Bytes := []
  deriving DecidableEq, Repr

/-- A way to log in. -/
inductive Login where
  | password (username password : Bytes)
  | key (username key : Bytes)
  deriving DecidableEq, Repr

/-- Loads a private key: from a user, the path of its file and a passphrase. -/
abbrev KeyLoader := Bytes → Bytes → Bytes → Except Fault Bytes

/-- The way to log in that credentials describe, with private keys loaded as given; none where no login
is wanted. -/
def Credentials.loginWith (loadKey : KeyLoader) (c : Option Credentials) : Except Fault (Option Login) :=
  match c with
  | none => .ok none
  | some c =>
    if c.type.isEmpty || c.type == bytes "none" then .ok none
    else if c.type == bytes "token" then
      if c.token.isEmpty then .error (.raise .auth "token authentication requires a token")
      else .ok (some (.password "token" c.token))
    else if c.type == bytes "basic" then
      if c.username.isEmpty || c.password.isEmpty then
        .error (.raise .auth "basic authentication requires username and password")
      else .ok (some (.password c.username c.password))
    else if c.type == bytes "ssh" then
      let user : Bytes := if c.username.isEmpty then "git" else c.username
      match loadKey user c.keyPath c.password with
      | .ok key => .ok (some (.key user key))
      | .error cause =>
        .error (.raiseFrom cause .auth "cannot load ssh key" [("key_path", .str c.keyPath)])
    else .error (.raise .auth "unsupported authentication type" [("type", .str c.type)])

/-- The way to log in with private keys from the files of a tree. -/
def Credentials.login (tree : FileTree) (c : Option Credentials) : Except Fault (Option Login) :=
  loginWith (fun _ path _ => tree.read path) c

end Bindery.Repository
