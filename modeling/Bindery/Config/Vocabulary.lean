import Bindery.Text.Quoted
import Bindery.Text.Title

/-!
# Vocabularies

A setting that takes one of a few words. Words are compared without regard to case and to white space
around them. An unknown word gives a fallback where one is wanted, and is refused otherwise.
-/

namespace Bindery

open Text (bytes)

/-- The words of a setting with what they stand for. -/
structure Vocabulary (α : Type) where
  entries : List (Bytes × α)
  fallback : α

namespace Vocabulary

variable {α : Type}

/-- The form in which words are compared. -/
def clean (word : Bytes) : Bytes := Text.lower (Text.trim word)

/-- The vocabulary of words in any spelling. Of two spellings of one word the later counts. -/
def ofWords (words : List (Bytes × α)) (fallback : α) : Vocabulary α :=
  { entries := (words.map fun (word, meaning) => (clean word, meaning)).reverse, fallback }

def find? (v : Vocabulary α) (word : Bytes) : Option α := v.entries.lookup (clean word)

def read (v : Vocabulary α) (word : Bytes) : α := (v.find? word).getD v.fallback

def words (v : Vocabulary α) : List Bytes := Text.sort (v.entries.map (·.1))

/-- What a word stands for, or why it is refused. -/
def readStrict (v : Vocabulary α) (word : Bytes) : Except Bytes α :=
  match v.find? word with
  | some meaning => .ok meaning
  | none =>
    .error (bytes "invalid value " ++ Text.quote word ++ ", valid options: ["
      ++ Text.joinWith " " v.words ++ "]")

end Vocabulary

end Bindery
