import Bindery.Fault.Basic
import Bindery.Text.Title

/-!
# Failures of fetching

What a version control program says when it fails is sorted by the words it uses, and from that
follows whether trying again can help.
-/

namespace Bindery.Repository

open Text (bytes)

/-- Whether a text uses one of several phrases, in any case of letters. -/
def mentions (text : Bytes) (phrases : List Bytes) : Bool :=
  let text := Text.lower text
  phrases.any fun phrase => Text.contains phrase text

/-- The way in which cloning failed, by the words of the message. The first that fits counts. -/
def CloneFailure.ofMessage? (text : Bytes) : Option CloneFailure :=
  if mentions text ["authentication", "auth fail", "invalid username or password"] then some .auth
  else if mentions text ["not found", "repository does not exist", "no such file"] then some .notFound
  else if mentions text ["unsupported protocol", "protocol not supported"] then
    some .unsupportedProtocol
  else if mentions text ["rate limit", "too many requests"] then some .rateLimit
  else if mentions text ["timeout"] then some .timeout
  else none

/-- The fault of a failed clone. -/
def cloneFault (url : Bytes) (inner : Fault) : Fault :=
  match CloneFailure.ofMessage? inner.text with
  | some failure => .clone failure "clone" url inner
  | none => .wrapped (bytes "failed to clone repository " ++ url) inner

/-- The category and the retry strategy of a fault that is not classified yet. -/
def categorize (f : Fault) : Category × Retry :=
  if f.isClone .auth then (.auth, .never)
  else if f.isClone .notFound then (.notFound, .never)
  else if f.isClone .unsupportedProtocol then (.config, .never)
  else if f.isClone .rateLimit then (.network, .rateLimit)
  else if f.isClone .timeout then (.network, .backoff)
  else if mentions f.text ["remote hung up", "connection reset", "no route to host"] then
    (.network, .backoff)
  else (.git, .backoff)

/-- Classifies a fault of an operation on a repository; a classified one is kept. -/
def classify (f : Fault) (operation url : Bytes) : Fault :=
  if f.report?.isSome then f
  else
    let (category, retry) := categorize f
    .classified
      { category, severity := .error, retry, message := "git operation failed"
        context := [("op", .str operation), ("url", .str url)] } (some f)

/-- Whether trying again cannot help. -/
def isPermanent (f : Fault) : Bool :=
  match f.report? with
  | some r => !r.retry.allows
  | none => false

end Bindery.Repository
