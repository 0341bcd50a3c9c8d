import Bindery.Expansion.Directives
import Bindery.Expansion.Template
import Bindery.Metadata.Block
import Bindery.Proofs.Path.Length

/-!
# Expanding documents

A document is expanded together with everything it includes. The chain of documents that are being
expanded never holds a path twice, and names are resolved to finitely many paths only, so the chain does
not grow forever, and expansion ends.
-/

namespace Bindery.Expansion

open Text (bytes)

/-! ## The chain of inclusions -/

/-- How many different texts of a length up to a bound are on a chain, which is kept backwards. -/
def countTexts (bound : Nat) : List Bytes → Nat
  | [] => 0
  | p :: rest => (if p.length ≤ bound && !rest.contains p then 1 else 0) + countTexts bound rest

/-- The texts that are not longer than a number of bytes. -/
def textsUpTo : Nat → List Bytes
  | 0 => [[]]
  | n + 1 => [] :: (List.range 256).flatMap fun c => (textsUpTo n).map (UInt8.ofNat c :: ·)

theorem mem_textsUpTo {n : Nat} {text : Bytes} (h : text.length ≤ n) : text ∈ textsUpTo n := by
  induction n generalizing text with
  | zero =>
    obtain rfl := List.eq_nil_of_length_eq_zero (Nat.le_zero.1 h)
    exact List.mem_singleton_self _
  | succ n ih =>
    cases text with
    | nil => exact List.mem_cons_self
    | cons c text =>
      refine List.mem_cons_of_mem _ (List.mem_flatMap.2 ⟨c.toNat, ?_, ?_⟩)
      · exact List.mem_range.2 c.toNat_lt
      · rw [UInt8.ofNat_toNat]
        exact List.mem_map_of_mem (ih (Nat.le_of_succ_le_succ h))

theorem length_textsUpTo (n : Nat) : (textsUpTo n).length ≤ Nat.pow 257 n := by
  induction n with
  | zero => exact Nat.le_refl 1
  | succ n ih =>
    have hsum : ∀ k, ((List.range k).map fun _ => (textsUpTo n).length).sum =
        k * (textsUpTo n).length := fun k => by
      rw [List.map_const', List.length_range, List.sum_replicate_nat]
    have hpos : 0 < Nat.pow 257 n := Nat.pow_pos (by decide)
    rw [textsUpTo, List.length_cons, List.length_flatMap]
    simp only [List.length_map, hsum]
    change _ ≤ Nat.pow 257 n * 257
    omega

theorem countP_lt {α : Type} {p q : α → Bool} {l : List α} (weaker : ∀ x ∈ l, p x → q x) {x : α}
    (mem : x ∈ l) (hq : q x) (hp : ¬ p x) : l.countP p < l.countP q := by
  induction l with
  | nil => cases mem
  | cons y l ih =>
    have tail : ∀ z ∈ l, p z → q z := fun z hz => weaker z (List.mem_cons_of_mem _ hz)
    have le : l.countP p ≤ l.countP q := List.countP_mono_left tail
    simp only [List.countP_cons]
    rcases List.mem_cons.1 mem with rfl | mem
    · simp only [hq, hp, if_true]
      simp only [Bool.false_eq_true, if_false]
      omega
    · have := ih tail mem
      have head := weaker y List.mem_cons_self
      by_cases hy : p y
      · simp only [hy, head hy, if_true]
        omega
      · simp only [hy, Bool.false_eq_true, if_false]
        split <;> omega

theorem countTexts_le_countP (bound : Nat) (texts : List Bytes) :
    countTexts bound texts ≤ (textsUpTo bound).countP fun p => texts.contains p := by
  induction texts with
  | nil => exact Nat.zero_le _
  | cons p rest ih =>
    have hweaker : ∀ q ∈ textsUpTo bound, rest.contains q = true → (p :: rest).contains q = true :=
      fun q _ hq => List.contains_iff_mem.2 (List.mem_cons_of_mem _ (List.contains_iff_mem.1 hq))
    rw [countTexts]
    split
    · next hnew =>
      rw [Bool.and_eq_true, decide_eq_true_eq, Bool.not_eq_true'] at hnew
      have hlt : (textsUpTo bound).countP (fun q => rest.contains q) <
          (textsUpTo bound).countP fun q => (p :: rest).contains q :=
        countP_lt hweaker (mem_textsUpTo hnew.1) (List.contains_iff_mem.2 List.mem_cons_self)
          (by rw [hnew.2]; exact Bool.false_ne_true)
      omega
    · have hle : (textsUpTo bound).countP (fun q => rest.contains q) ≤
          (textsUpTo bound).countP fun q => (p :: rest).contains q := List.countP_mono_left hweaker
      omega

theorem countTexts_le (bound : Nat) (texts : List Bytes) : countTexts bound texts ≤ Nat.pow 257 bound :=
  Nat.le_trans (countTexts_le_countP bound texts)
    (Nat.le_trans List.countP_le_length (length_textsUpTo bound))

/-- How many steps are ahead of a document that is included by the documents of a chain: each path that a
name can be resolved to can still be put on the chain, unless it is there already, and then refused. -/
def ahead (s : Setting) (chain : List Bytes) (path : Bytes) : Nat :=
  let bound := s.resolver.reach s.tree s.lang
  2 * (Nat.pow 257 bound - countTexts bound (chain ++ [path]).reverse) + if chain.contains path then 0 else 1

/-- An inclusion is a step. -/
theorem ahead_lt {s : Setting} {chain : List Bytes} {path directory name child : Bytes}
    (fresh : chain.contains path = false)
    (found : s.resolver.resolve s.tree directory name s.lang = .ok child) :
    ahead s (chain ++ [path]) child < ahead s chain path := by
  have hchild : child.length ≤ s.resolver.reach s.tree s.lang := Resolver.length_of_resolve found
  have hcount := countTexts_le (s.resolver.reach s.tree s.lang) (chain ++ [path] ++ [child]).reverse
  have hcontains : (chain ++ [path]).reverse.contains child = (chain ++ [path]).contains child := by
    rw [Bool.eq_iff_iff, List.contains_iff_mem, List.contains_iff_mem, List.mem_reverse]
  rw [List.reverse_append, List.reverse_singleton, List.singleton_append, countTexts, hcontains] at hcount
  rw [ahead, ahead, fresh, List.reverse_append, List.reverse_singleton, List.singleton_append]
  simp only [countTexts, hcontains, decide_eq_true hchild, Bool.true_and] at hcount ⊢
  cases hopen : (chain ++ [path]).contains child with
  | true =>
    simp only [hopen, Bool.not_true, Bool.false_eq_true, if_false, if_true] at hcount ⊢
    omega
  | false =>
    simp only [hopen, Bool.not_false, Bool.false_eq_true, if_false, if_true] at hcount ⊢
    omega

/-- The fault of an inclusion that would not end. -/
def cycleFault (s : Setting) (chain : List Bytes) (path : Bytes) : Fault :=
  let shown := (chain ++ [path]).map s.display
  .raise .inclusion "inclusion cycle"
    [("file", .str (s.display path)), ("chain", .str (Text.joinWith " -> " shown))]

/-! ## Documents -/

/-- Adds the metadata block of a document to the store, if it has one. -/
def declareMetadata (s : Setting) (path text : Bytes) : Pass Unit :=
  match Metadata.parseBlock text with
  | .error cause =>
    throw (Fault.passOn cause .metadata "invalid metadata block" [("file", .str (s.display path))])
  | .ok none => pure ()
  | .ok (some block) => Pass.ask (.merge block)

/-- Does what a directive of a document asks for. `input` includes another document. -/
def perform (s : Setting) (path : Bytes) (input : Bytes → Pass Bytes) (directive : Directive)
    (args : List Bytes) (line : Nat) : Pass Bytes := do
  let dir := Path.dir path
  let arg (i : Nat) : Bytes := args[i]?.getD []
  Pass.note (.reached path line directive args)
  let output ← Pass.mapFault (s.annotate · path directive.name line) <|
    match directive with
    | .input => input (arg 0)
    | .code | .relativeCode =>
      localListing s dir (arg 2)
        { label := arg 0, caption := arg 1, lines := arg 3, labels := arg 4, options := arg 5 }
    | .gitCode =>
      repositoryListing s (arg 0) (arg 3)
        { label := arg 1, caption := arg 2, lines := arg 4, labels := arg 5, options := arg 6 }
    | .figure => figure s dir (arg 0) (arg 1) (arg 2) (arg 3)
    | .definition => definition (arg 0) (arg 1) (arg 2)
    | .reference => reference (arg 0) path line
    | .metadata => metadata s (arg 0)
  Pass.ask (.count (.directive directive.name))
  Pass.note (.performed path line directive args output)
  pure output

/-- Expands a document that is included by the documents of a chain. -/
def expandFile (s : Setting) (chain : List Bytes) (path : Bytes) (depth : Nat) : Pass (Node × Bytes) :=
  match fresh : chain.contains path with
  | true => throw (cycleFault s chain path)
  | false =>
    if s.cancelled then throw (Fault.passOn .cancelled .build "expansion cancelled")
    else
      match s.tree.read path with
      | .error cause =>
        throw (Fault.raiseFrom cause .fileSystem "cannot read document"
          [("file", .str (s.display path))])
      | .ok text => do
        Pass.note (.opened chain path text)
        declareMetadata s path text
        -- The node of this document has the documents that it includes itself; those read before for
        -- the including document are put aside.
        let outer := (← get).children
        modify fun d => { d with children := [] }
        let input (name : Bytes) : Pass Bytes :=
          match found : s.resolver.resolve s.tree (Path.dir path) name s.lang with
          | .error refusal => throw refusal.toFault
          | .ok child => do
            Pass.note (.included (chain ++ [path]) child)
            have := ahead_lt fresh found
            let (node, text) ← expandFile s (chain ++ [path]) child (depth + 1)
            modify fun d => { d with children := d.children ++ [node] }
            pure text
        let out ← (Template.ofText text).expand (perform s path input) 0 []
        let children := (← get).children
        modify fun d => { d with children := outer }
        Pass.note (.closed path)
        pure (.mk path (Path.dir path) depth children, out)
termination_by ahead s chain path

/-! ## References -/

/-- A piece of an expanded text: literal text, or a mark with the digits of its number. -/
inductive Segment where
  | literal (c : UInt8)
  | mark (digits : Bytes)
  deriving DecidableEq, Repr

/-- The digits of a mark at the start of a text, and how many bytes the mark takes. -/
def markDigits? (s : Bytes) : Option (Bytes × Nat) := do
  let rest ← Text.afterStart? markStart s
  let digits := rest.takeWhile Text.isDigit
  guard (!digits.isEmpty)
  let _ ← Text.afterStart? markEnd (rest.drop digits.length)
  some (digits, digits.length + 6)

/-- Cuts a text at its marks. `skip` counts the bytes that still belong to the last one. -/
def segmentsAfter : Nat → Bytes → List Segment
  | _, [] => []
  | skip + 1, _ :: rest => segmentsAfter skip rest
  | 0, c :: rest =>
    match markDigits? (c :: rest) with
    | some (digits, length) => .mark digits :: segmentsAfter (length - 1) rest
    | none => .literal c :: segmentsAfter 0 rest

def segments (text : Bytes) : List Segment := segmentsAfter 0 text

/-- What a segment becomes: a mark is replaced by the link to the definition it refers to. A mark
that no reference left behind breaks the program. -/
def resolveSegment (s : Setting) (draft : Draft) : Segment → Except Fault Bytes
  | .literal c => .ok [c]
  | .mark digits =>
    match draft.pending[Double.digitsValue digits]? with
    | none => .error .crashed
    | some p =>
      match draft.registry.lookup p.label with
      | .ok reference => .ok reference.link
      | .error refusal => .error (s.annotate refusal.toFault p.file Directive.reference.name p.line)

/-- Whether a result is a breakdown of the program. -/
def isCrash {α : Type} : Except Fault α → Bool
  | .error .crashed => true
  | _ => false

/-- Puts links in the place of all marks. -/
def resolveReferences (s : Setting) (draft : Draft) (text : Bytes) : Except Fault Bytes :=
  let results := (segments text).map (resolveSegment s draft)
  if results.any isCrash then .error .crashed else (results.mapM id).map List.flatten

/-! ## Books -/

/-- The expanded book of one language. -/
structure Expanded where
  lang : Bytes
  text : Bytes
  root : Node
  labels : Label.Registry
  resources : List Resource

/-- The last steps of a pass: references are resolved, and labels in the text are numbered. -/
def finish (s : Setting) (root : Node) (text : Bytes) (draft : Draft) : Except Fault Expanded := do
  let text ← resolveReferences s draft text
  match draft.registry.scanNative text with
  | (some refusal, _) => .error refusal.toFault
  | (none, labels) =>
    .ok { lang := s.lang.id, text, root, labels, resources := draft.resources }

/-- Notes the language in a fault. -/
def Setting.withLanguage (s : Setting) (fault : Fault) : Fault :=
  match fault with
  | .crashed => .crashed
  | fault =>
    match fault.classifiedPart? with
    | some f => f.withDefault "lang" (.str s.lang.id)
    | none => .passOn fault .internal "expansion failed" [("lang", .str s.lang.id)]

/-- Expands a root document and everything it includes. -/
def expand (s : Setting) (root : Bytes) : Script (Except Fault Expanded) :=
  ((expandFile s [] root 0) { registry := { lang := s.lang.id } }).run.bind fun result =>
    let result := result.bind fun ((node, text), draft) => finish s node text draft
    .ask (.count (.pass s.lang.id result.toBool)) fun _ =>
      .done (result.mapError s.withLanguage)

/-- Answers a metadata key outside of a document. -/
def metadataText (s : Setting) (key : Bytes) : Script (Except Fault Bytes) :=
  ((metadata s key) {}).run.bind fun result => .done (result.map (·.1))

end Bindery.Expansion
