import Bindery.Proofs.Config.Fetching

/-!
# Another input than the configured one

The root and the name of a book are given in its document or follow from the input. Which of the two it
was is not kept: when another input is asked for, the values are compared with what follows from the old
one. So a given value is kept unless it is just what would have followed (`Coincides`); then it follows the
new input as if it had not been given (`withInput_of_parse`).
-/

namespace Bindery.Config

open Text (bytes)

/-! ## Values that follow from the input -/

/-- A value is given that would have followed from the old input as well, and does not from the new one. -/
def Coincides (follow : Bytes → Bytes) (old new given : Bytes) : Prop :=
  given ≠ [] ∧ given = follow old ∧ given ≠ follow new

/-- What a value is for a new input: as it was given, or else what follows from that input. A given value
that coincides is lost. -/
structure Follows (follow : Bytes → Bytes) (old new given value : Bytes) : Prop where
  kept : ¬ Coincides follow old new given → value = orElse given (follow new)
  lost : Coincides follow old new given → value = follow new ∧ value ≠ given

section

variable {follow : Bytes → Bytes} {old new given value : Bytes}

theorem orElse_of_ne_nil (h : given ≠ []) (standard : Bytes) : orElse given standard = given :=
  if_neg (mt List.isEmpty_iff.1 h)

/-- Comparing a completed value with what follows from the old input finds what was not given, and what
coincides. -/
theorem follows_ite (hvalue : value = orElse given (follow old)) :
    Follows follow old new given (if value = follow old then follow new else value) := by
  subst hvalue
  by_cases hgiven : given = []
  · subst hgiven
    have hnone : ∀ standard, orElse [] standard = standard := fun _ => rfl
    refine ⟨fun _ => ?_, fun h => absurd rfl h.1⟩
    rw [hnone, hnone, if_pos rfl]
  · rw [orElse_of_ne_nil hgiven]
    refine ⟨fun h => ?_, fun h => ?_⟩
    · rw [orElse_of_ne_nil hgiven]
      split
      · next hold =>
        by_contra hne
        exact h ⟨hgiven, hold, Ne.symm hne⟩
      · rfl
    · obtain ⟨-, hold, hnew⟩ := h
      rw [if_pos hold]
      exact ⟨rfl, hnew.symm⟩

end

/-! ## What a document says of the book -/

/-- The input, the root and the name are as a document says, before they are completed. -/
structure PlacedBy (document : Option Yaml.Node) (c : Config) : Prop where
  input : said? document ["input"] Yaml.Node.text? "book.md" = some c.input
  root : said? document ["root"] Yaml.Node.text? [] = some c.root
  name : said? document ["name"] Yaml.Node.text? [] = some c.name

section

variable {document : Option Yaml.Node} {node : Yaml.Node} {c read : Config} {input : Bytes}

theorem placedBy_of_ofNode? (h : ofNode? node = some c) : PlacedBy (some node) c := by
  obtain ⟨hinput, hroot, hname, -⟩ := said_of_ofNode? h
  exact ⟨hinput, hroot, hname⟩

theorem DecodedFrom.placedBy (h : DecodedFrom document read) : PlacedBy document read := by
  cases h with
  | standard hempty =>
    have hsaid : ∀ name standing, said? document [name] Yaml.Node.text? standing = some standing := by
      intro name standing
      rw [said?, bind_given?_of_empty hempty]
    exact ⟨hsaid _ _, hsaid _ _, hsaid _ _⟩
  | node hread => exact placedBy_of_ofNode? hread

theorem input_ne_nil (h : c.violations = []) : c.input ≠ [] := by
  intro hempty
  rw [violations, Violation.required, hempty] at h
  cases h

theorem completed (h : read.normalize.complete.violations = []) :
    let c := read.normalize.complete
    c.input = Text.trim read.input ∧ c.root = orElse (Text.trim read.root) (Path.dir c.input) ∧
      c.name = orElse read.name (Path.stem c.input) := by
  have hinput : (Text.trim read.input).isEmpty = false :=
    List.isEmpty_eq_false_iff.2 (input_ne_nil (c := read.normalize.complete) h)
  refine ⟨rfl, ?_, ?_⟩
  · simp only [complete, normalize, orElse, hinput, Bool.not_false, Bool.and_true]
  · simp only [complete, normalize, orElse, hinput, Bool.not_false, Bool.and_true]

/-- Another input changes nothing but the input, the root and the name. -/
theorem withInput_eq (h : input ≠ []) :
    c.withInput input =
      { c with
        input
        root := if c.root = Path.dir c.input then Path.dir input else c.root
        name := if c.name = Path.stem c.input then Path.stem input else c.name } := by
  rw [withInput]
  split
  · next hsame =>
    have hinput : input = c.input := by simpa [h] using hsame
    rw [hinput, ite_eq_right_iff.2 Eq.symm, ite_eq_right_iff.2 Eq.symm]
  · simp only [beq_iff_eq]

/-- **With another input, root and name are those of the document or follow that input**, except that a
given one is lost if it would have followed from the input of the document. All other settings stay. -/
theorem withInput_of_parse {parser : Yaml.Parser} {env : Environment} {text : Bytes}
    (h : parseWith parser env text = .ok c) (hinput : input ≠ []) :
    ∃ document old givenRoot givenName, parser (env.expand text) = some document ∧
      said? document ["input"] Yaml.Node.text? "book.md" = some old ∧
      said? document ["root"] Yaml.Node.text? [] = some givenRoot ∧
      said? document ["name"] Yaml.Node.text? [] = some givenName ∧
      ∃ root name, c.withInput input = { c with input, root, name } ∧
        Follows Path.dir (Text.trim old) input (Text.trim givenRoot) root ∧
        Follows Path.stem (Text.trim old) input givenName name := by
  obtain ⟨document, read, hdocument, hdecoded, rfl, hviolations⟩ := exists_decoded_of_parse h
  have hplaced := hdecoded.placedBy
  obtain ⟨hold, hroot, hname⟩ := completed hviolations
  refine ⟨document, _, _, _, hdocument, hplaced.input, hplaced.root, hplaced.name, _, _,
    withInput_eq hinput, ?_, ?_⟩
  · rw [hold] at hroot ⊢
    exact follows_ite hroot
  · rw [hold] at hname ⊢
    exact follows_ite hname

/-- A document that gives the name that its input has. -/
def named : Bytes := "input: book.md\nname: book\n"

/-- The given name is lost, and the root follows the new input. -/
theorem withInput_of_parse_named :
    ∃ c, parseWith Yaml.parse? [] named = .ok c ∧ bytes "part/other.md" ≠ [] ∧
      (∃ document old givenRoot givenName, Yaml.parse? (Environment.expand [] named) = some document ∧
        said? document ["input"] Yaml.Node.text? "book.md" = some old ∧
        said? document ["root"] Yaml.Node.text? [] = some givenRoot ∧
        said? document ["name"] Yaml.Node.text? [] = some givenName ∧
        ∃ root name, c.withInput "part/other.md" = { c with input := "part/other.md", root, name } ∧
          Follows Path.dir (Text.trim old) "part/other.md" (Text.trim givenRoot) root ∧
          Follows Path.stem (Text.trim old) "part/other.md" givenName name) ∧
      c.name = "book" ∧ (c.withInput "part/other.md").name = "other" ∧
      (c.withInput "part/other.md").root = "part" := by
  have hnamed : ((parseWith Yaml.parse? [] named).toOption.map fun c =>
      (c.name, (c.withInput "part/other.md").name, (c.withInput "part/other.md").root))
      = some (bytes "book", bytes "other", bytes "part") := by decide +kernel
  have hother : bytes "part/other.md" ≠ [] := by decide
  cases hparse : parseWith Yaml.parse? [] named with
  | error fault =>
    rw [hparse] at hnamed
    cases hnamed
  | ok c =>
    rw [hparse] at hnamed
    obtain ⟨hname, hvalues⟩ := Prod.mk.inj (Option.some.inj hnamed)
    obtain ⟨hother', hroot⟩ := Prod.mk.inj hvalues
    exact ⟨c, rfl, hother, withInput_of_parse hparse hother, hname, hother', hroot⟩

end

end Bindery.Config
