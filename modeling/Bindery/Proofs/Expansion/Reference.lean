import Bindery.Proofs.Expansion.Ledger

/-!
# References

References may come before the definition they refer to, so they are resolved when the whole book is
expanded. In the text of the whole book each mark becomes the link to the one definition of its label.
If there are marks whose label nothing defines, the first of them is the failure of the pass.
-/

namespace Bindery.Expansion

open Text
open Repository (Fetcher)

def definitionsOf (trace : List Exchange) (label : Bytes) : List Performance :=
  (defining trace).filter fun p => trim (p.arg 1) == label

def linkTo (title : Bytes) (number : Nat) (label : Bytes) : Bytes :=
  bytes "[" ++ title ++ bytes " " ++ ofNat number ++ bytes "](#def:" ++ label ++ bytes ")"

/-- The fault of a reference to a label that nothing defines. It tells the label and the place of the
reference. -/
def undefinedFault (s : Setting) (p : Pending) : Fault :=
  .raise .label "undefined definition"
    [("key", .str p.label), ("file", .str (s.display p.file)), ("line", .int p.line),
      ("directive", .str Directive.reference.name), ("lang", .str s.lang.id)]

/-- A fault that says that a definition is missing. -/
def IsUndefined (fault : Fault) : Prop :=
  ∃ report, fault.report? = some report ∧ report.category = .label ∧
    report.message = bytes "undefined definition"

def Form.literals (form : Form) : List Bytes := form.places.map (·.1) ++ [form.last]

/-- A text is the link to the one definition of the label that a reference names, with the title of its
type and the number that the definition prints. -/
def IsLink (trace : List Exchange) (labels : Label.Registry) (k : Nat) (text : Bytes) : Prop :=
  ∃ p q number, (referring trace)[k]? = some p ∧ definitionsOf trace p.pending.label = [q] ∧
    q.PrintsNumber number ∧
    text = linkTo (labels.title (trim (q.arg 0))) number p.pending.label

/-- How the references of a pass are resolved. The conversation tells which references and definitions
were made, `raw` is the text with marks, and the form says where marks stand in it. -/
structure Resolves (s : Setting) (trace : List Exchange) (raw : Bytes) (form : Form)
    (result : Except Fault Expanded) : Prop where
  /-- The text holds marks where the form has places, and nowhere else. -/
  written : form.fill mark = raw
  literal : ∀ text ∈ form.literals, ¬ markStart <:+: text
  /-- Marks are those that references have left. -/
  marks : ∀ (k : Nat) (p : Performance), (referring trace)[k]? = some p → p.output = mark k
  /-- References stand in the text in the order in which they were made, and none stands there twice. -/
  ascending : form.numbers.Pairwise (· < ·)
  referred : ∀ k ∈ form.numbers, k < (referring trace).length
  /-- A reference that does not stand in the text was in an argument that is not printed. -/
  complete : ∀ k < (referring trace).length,
    k ∈ form.numbers ∨ ∃ p ∈ performances trace, p.Drops k
  /-- If the pass succeeds, each mark has become a link. -/
  linked : ∀ expanded, result = .ok expanded → ¬ markStart <:+: expanded.text ∧
    ∃ link : Nat → Bytes, expanded.text = form.fill link ∧
      ∀ k ∈ form.numbers, IsLink trace expanded.labels k (link k)
  /-- The pass fails for a missing definition exactly if a label in the text has none. -/
  undefined : (∃ fault, result = .error fault ∧ IsUndefined fault) ↔
    ∃ k ∈ form.numbers, ∃ p, (referring trace)[k]? = some p ∧
      definitionsOf trace p.pending.label = []
  /-- The fault is that of the first such reference in the text. -/
  first : ∀ (before after : List Nat) (k : Nat) (p : Performance),
    form.numbers = before ++ k :: after → (referring trace)[k]? = some p →
    definitionsOf trace p.pending.label = [] →
    (∀ j ∈ before, ∀ q, (referring trace)[j]? = some q → definitionsOf trace q.pending.label ≠ []) →
    result = .error (undefinedFault s p.pending)

/-! ## Labels and their definitions -/

theorem filter_eq_singleton {α β : Type} [BEq β] [LawfulBEq β] {l : List α} {f : α → β} {a : α}
    (h : (l.map f).Nodup) (ha : a ∈ l) : (l.filter fun x => f x == f a) = [a] := by
  induction l with
  | nil => cases ha
  | cons x l ih =>
    obtain ⟨hx, hl⟩ := List.nodup_cons.1 h
    rcases List.mem_cons.1 ha with rfl | ha
    · have hnone : (l.filter fun y => f y == f a) = [] := by
        rw [List.filter_eq_nil_iff]
        intro y hy heq
        exact hx (List.mem_map.2 ⟨y, hy, eq_of_beq heq⟩)
      rw [List.filter_cons, if_pos (beq_self_eq_true _), hnone]
    · have hne : ¬ (f x == f a) = true := by
        intro heq
        exact hx (List.mem_map.2 ⟨a, ha, (eq_of_beq heq).symm⟩)
      rw [List.filter_cons, if_neg hne, ih hl ha]

/-- What a draft holds when the root document is expanded: the references and definitions that the
conversation tells of. -/
structure Complete (trace : List Exchange) (draft : Draft) : Prop where
  pending : draft.pending = (referring trace).map Performance.pending
  definitions : List.Forall₂ Defines draft.registry.definitions (defining trace)
  sound : draft.registry.Sound

section

variable {s : Setting} {trace : List Exchange} {draft : Draft}

theorem exists_of_mem_right {α β : Type} {R : α → β → Prop} {as : List α} {bs : List β}
    (h : List.Forall₂ R as bs) {b : β} (hb : b ∈ bs) : ∃ a ∈ as, R a b := by
  induction h with
  | nil => cases hb
  | @cons a b' as bs hab _ ih =>
    rcases List.mem_cons.1 hb with rfl | hb
    · exact ⟨a, List.mem_cons_self, hab⟩
    · obtain ⟨a', ha', hrel⟩ := ih hb
      exact ⟨a', List.mem_cons_of_mem _ ha', hrel⟩

theorem map_key_eq {entries : List Label.Entry} {ps : List Performance}
    (h : List.Forall₂ Defines entries ps) : entries.map (·.key) = ps.map fun p => trim (p.arg 1) := by
  induction h with
  | nil => rfl
  | cons hdefines _ ih => rw [List.map_cons, List.map_cons, hdefines.key, ih]

/-- A label that has definitions has one, and the registry leads to it. -/
theorem Complete.lookup_ok (h : Complete trace draft) {label : Bytes}
    (hne : definitionsOf trace label ≠ []) :
    ∃ q e, definitionsOf trace label = [q] ∧ Defines e q ∧ Label.isBuiltin e.kind = false ∧
      draft.registry.lookup label = .ok { entry := e, title := draft.registry.title e.kind } := by
  obtain ⟨q, hq⟩ := List.exists_mem_of_ne_nil _ hne
  obtain ⟨hdefining, hlabel⟩ := List.mem_filter.1 hq
  obtain rfl : trim (q.arg 1) = label := eq_of_beq hlabel
  obtain ⟨e, he, hdefines⟩ := exists_of_mem_right h.definitions hdefining
  have hnodup : ((defining trace).map fun p => trim (p.arg 1)).Nodup := by
    rw [← map_key_eq h.definitions]
    exact h.sound.nodup_keys
  have hlookup := h.sound.lookup_of_mem he
  rw [hdefines.key] at hlookup
  refine ⟨q, e, filter_eq_singleton hnodup hdefining, hdefines, ?_, hlookup⟩
  simpa using (List.mem_filter.1 he).2

theorem Complete.lookup_error (h : Complete trace draft) {label : Bytes}
    (hnil : definitionsOf trace label = []) :
    draft.registry.lookup label = .error (.undefinedDefinition label) := by
  refine h.sound.lookup_of_forall_ne fun e he hkey => ?_
  have hflip : List.Forall₂ (flip Defines) (defining trace) draft.registry.definitions :=
    h.definitions.flip
  obtain ⟨q, hq, hdefines⟩ := exists_of_mem_right hflip he
  have hmem : q ∈ definitionsOf trace label :=
    List.mem_filter.2 ⟨hq, beq_iff_eq.2 (hdefines.key.symm.trans hkey)⟩
  rw [hnil] at hmem
  cases hmem

/-! ## What a mark becomes -/

theorem Complete.resolveSegment (h : Complete trace draft) {k : Nat} {p : Performance}
    (hp : (referring trace)[k]? = some p) :
    resolveSegment s draft (.mark (ofNat k)) =
      match draft.registry.lookup p.pending.label with
      | .ok reference => .ok reference.link
      | .error refusal =>
        .error (s.annotate refusal.toFault p.path Directive.reference.name p.line) := by
  have hpending : draft.pending[k]? = some p.pending := by
    rw [h.pending, List.getElem?_map, hp]
    rfl
  rw [Expansion.resolveSegment, digitsValue_ofNat, hpending]
  rfl

theorem link_eq {e : Label.Entry} (hkind : Label.isBuiltin e.kind = false) (title : Bytes) :
    Label.Reference.link { entry := e, title } = linkTo title e.number e.key := by
  have hwords : bytes "](#def:" = bytes "](#" ++ (bytes "def" ++ bytes ":") := by decide
  rw [Label.Reference.link, Label.Entry.anchor, hkind, linkTo, hwords]
  simp [List.append_assoc]

theorem Complete.resolve_defined (h : Complete trace draft) {k : Nat} {p : Performance}
    (hp : (referring trace)[k]? = some p) (hne : definitionsOf trace p.pending.label ≠ []) :
    ∃ q number, definitionsOf trace p.pending.label = [q] ∧ q.PrintsNumber number ∧
      Label.isKey (trim (q.arg 0)) = true ∧ Label.isKey p.pending.label = true ∧
      Expansion.resolveSegment s draft (.mark (ofNat k)) =
        .ok (linkTo (draft.registry.title (trim (q.arg 0))) number p.pending.label) := by
  obtain ⟨q, e, hdefinitions, hdefines, hkind, hlookup⟩ := h.lookup_ok hne
  have hkey : e.key = p.pending.label := by
    have hq : q ∈ definitionsOf trace p.pending.label := by
      rw [hdefinitions]
      exact List.mem_cons_self
    exact hdefines.key.trans (eq_of_beq (List.mem_filter.1 hq).2)
  refine ⟨q, e.number, hdefinitions, hdefines.number, hdefines.kind ▸ hdefines.isKey_kind,
    hkey ▸ hdefines.isKey_key, ?_⟩
  rw [h.resolveSegment hp, hlookup]
  dsimp only
  rw [link_eq hkind, hdefines.kind, hkey]

theorem Complete.resolve_undefined (h : Complete trace draft) {k : Nat} {p : Performance}
    (hp : (referring trace)[k]? = some p) (hnil : definitionsOf trace p.pending.label = []) :
    Expansion.resolveSegment s draft (.mark (ofNat k)) =
      .error (s.annotate (Label.Refusal.undefinedDefinition p.pending.label).toFault p.path
        Directive.reference.name p.line) := by
  rw [h.resolveSegment hp, h.lookup_error hnil]

theorem withLanguage_annotate (p : Pending) :
    s.withLanguage (s.annotate (Label.Refusal.undefinedDefinition p.label).toFault p.file
      Directive.reference.name p.line) = undefinedFault s p := by
  rfl

/-! ## The end of a pass -/

theorem report?_classified (report : Report) (cause : Option Fault) :
    (Fault.classified report cause).report? = some report := by
  rw [Fault.report?, Fault.chain, List.findSome?_cons, Fault.ownReport?]

theorem isUndefined_undefinedFault (p : Pending) : IsUndefined (undefinedFault s p) :=
  ⟨_, report?_classified _ _, rfl, rfl⟩

/-- Labels in the text are never refused for a missing definition. -/
theorem not_isUndefined_of_refusal {refusal : Label.Refusal}
    (h : ∀ key, refusal ≠ .undefinedDefinition key) :
    ¬ IsUndefined (s.withLanguage refusal.toFault) := by
  rintro ⟨report, hreport, -, hmessage⟩
  cases refusal with
  | undefinedDefinition key => exact h key rfl
  | _ =>
    obtain rfl := Option.some.inj ((report?_classified _ _).symm.trans hreport)
    simp only [Report.standard] at hmessage
    exact absurd hmessage (by decide)

/-- What the last steps of a pass make of a text whose references are resolved. -/
theorem finish_of_ok {node : Node} {raw text : Bytes}
    (h : resolveReferences s draft raw = .ok text) :
    (∃ expanded, (finish s node raw draft).mapError s.withLanguage = .ok expanded ∧
      expanded.text = text ∧ expanded.labels.titles = draft.registry.titles) ∨
    ∃ fault, (finish s node raw draft).mapError s.withLanguage = .error fault ∧
      ¬ IsUndefined fault := by
  obtain ⟨htitles, hrefusals⟩ := draft.registry.defineAll_spec (Label.attributes text)
  rw [finish_of_resolved h, Label.Registry.scanNative]
  generalize draft.registry.defineAll (Label.attributes text) = result at htitles hrefusals
  obtain ⟨refusal, labels⟩ := result
  cases refusal with
  | some refusal =>
    exact .inr ⟨_, rfl, not_isUndefined_of_refusal (hrefusals refusal rfl)⟩
  | none => exact .inl ⟨_, rfl, rfl, htitles⟩

theorem finish_of_error {node : Node} {raw : Bytes} {fault : Fault}
    (h : resolveReferences s draft raw = .error fault) :
    (finish s node raw draft).mapError s.withLanguage = .error (s.withLanguage fault) := by
  rw [finish_of_unresolved h]
  rfl

theorem title_congr {r r' : Label.Registry} (h : r.titles = r'.titles) (kind : Bytes) :
    r.title kind = r'.title kind := by
  rw [Label.Registry.title, Label.Registry.title, h]

theorem tidy_linkTo {title label : Bytes} (htitle : Tidy title) (hlabel : Label.isKey label = true)
    (number : Nat) : Tidy (linkTo title number label) := by
  have hnumber : Tidy (bytes "[" ++ title ++ bytes " " ++ ofNat number) :=
    ((Tidy.append (tidy_bytes rfl) htitle).append (tidy_bytes rfl)).append (tidy_ofNat number)
  exact ((hnumber.append (tidy_bytes rfl)).append (tidy_of_isKey hlabel)).append (tidy_bytes rfl)

theorem exists_first {α : Type} {P : α → Prop} {l : List α} (h : ∃ a ∈ l, P a) :
    ∃ before a after, l = before ++ a :: after ∧ P a ∧ ∀ b ∈ before, ¬ P b := by
  induction l with
  | nil =>
    obtain ⟨a, ha, -⟩ := h
    cases ha
  | cons x l ih =>
    by_cases hx : P x
    · exact ⟨[], x, l, rfl, hx, by simp⟩
    · obtain ⟨a, ha, hP⟩ := h
      have hrest : a ∈ l := (List.mem_cons.1 ha).resolve_left fun heq => hx (heq ▸ hP)
      obtain ⟨before, b, after, rfl, hb, hbefore⟩ := ih ⟨a, hrest, hP⟩
      exact ⟨x :: before, b, after, rfl, hb, List.forall_mem_cons.2 ⟨hx, hbefore⟩⟩

theorem IsLink.congr {r r' : Label.Registry} {k : Nat} {text : Bytes} (h : IsLink trace r k text)
    (htitles : r'.titles = r.titles) : IsLink trace r' k text := by
  obtain ⟨p, q, number, hp, hdefinitions, hnumber, htext⟩ := h
  rw [← title_congr htitles] at htext
  exact ⟨p, q, number, hp, hdefinitions, hnumber, htext⟩

section Finish

variable {form : Form}

theorem Complete.exists_links (h : Complete trace draft) (htitles : TidyTitles draft.registry)
    (hdefined : ∀ k ∈ form.numbers, ∃ p, (referring trace)[k]? = some p ∧
      definitionsOf trace p.pending.label ≠ []) :
    ∃ link : Nat → Bytes, ∀ k ∈ form.numbers,
      Expansion.resolveSegment s draft (.mark (ofNat k)) = .ok (link k) ∧
        IsLink trace draft.registry k (link k) ∧ Tidy (link k) := by
  have hone : ∀ k, ∃ text, k ∈ form.numbers →
      Expansion.resolveSegment s draft (.mark (ofNat k)) = .ok text ∧
        IsLink trace draft.registry k text ∧ Tidy text := by
    intro k
    by_cases hk : k ∈ form.numbers
    · obtain ⟨p, hp, hne⟩ := hdefined k hk
      obtain ⟨q, number, hdefinitions, hnumber, hkind, hkey, hresolve⟩ := h.resolve_defined hp hne
      refine ⟨_, fun _ => ⟨hresolve, ⟨p, q, number, hp, hdefinitions, hnumber, rfl⟩, ?_⟩⟩
      exact tidy_linkTo (tidy_registry_title htitles hkind) hkey number
    · exact ⟨[], fun h => absurd h hk⟩
  exact Classical.skolem.1 hone

/-- If all labels are defined, the text has links for marks, or the pass fails for other reasons. -/
theorem Complete.finish_defined (h : Complete trace draft) (htitles : TidyTitles draft.registry)
    (hform : form.AllTidy)
    (hdefined : ∀ k ∈ form.numbers, ∃ p, (referring trace)[k]? = some p ∧
      definitionsOf trace p.pending.label ≠ [])
    (node : Node) :
    (∃ expanded, (finish s node (form.fill mark) draft).mapError s.withLanguage = .ok expanded ∧
      ¬ markStart <:+: expanded.text ∧
      ∃ link : Nat → Bytes, expanded.text = form.fill link ∧
        ∀ k ∈ form.numbers, IsLink trace expanded.labels k (link k)) ∨
    ∃ fault, (finish s node (form.fill mark) draft).mapError s.withLanguage = .error fault ∧
      ¬ IsUndefined fault := by
  obtain ⟨link, hlink⟩ := h.exists_links (s := s) htitles hdefined
  have hresolve := resolveReferences_of_ok hform fun k hk => (hlink k hk).1
  refine (finish_of_ok hresolve).imp_left ?_
  rintro ⟨expanded, hexpanded, htext, hlabels⟩
  refine ⟨expanded, hexpanded, ?_, link, htext, fun k hk => (hlink k hk).2.1.congr hlabels⟩
  rw [htext]
  exact (Form.tidy_fill hform fun k hk => (hlink k hk).2.2).not_isInfix

/-- If labels are not defined, the first reference to such a label is the fault. -/
theorem Complete.finish_undefined (h : Complete trace draft) (hform : form.AllTidy)
    (hreferred : ∀ k ∈ form.numbers, ∃ p, (referring trace)[k]? = some p)
    {before after : List Nat} {k : Nat} {p : Performance}
    (hnumbers : form.numbers = before ++ k :: after) (hp : (referring trace)[k]? = some p)
    (hnil : definitionsOf trace p.pending.label = [])
    (hbefore : ∀ j ∈ before, ∀ q, (referring trace)[j]? = some q →
      definitionsOf trace q.pending.label ≠ []) (node : Node) :
    (finish s node (form.fill mark) draft).mapError s.withLanguage =
      .error (undefinedFault s p.pending) := by
  have hok : ∀ j ∈ before, ∃ t, Expansion.resolveSegment s draft (.mark (ofNat j)) = .ok t := by
    intro j hj
    obtain ⟨q, hq⟩ := hreferred j (hnumbers ▸ List.mem_append_left _ hj)
    obtain ⟨_, _, -, -, -, -, hresolve⟩ := h.resolve_defined (s := s) hq (hbefore j hj q hq)
    exact ⟨_, hresolve⟩
  have hcrash : ∀ j ∈ form.numbers, Expansion.resolveSegment s draft (.mark (ofNat j)) ≠
      .error .crashed := by
    intro j hj
    obtain ⟨q, hq⟩ := hreferred j hj
    by_cases hnone : definitionsOf trace q.pending.label = []
    · rw [h.resolve_undefined hq hnone]
      exact fun heq => by cases heq
    · obtain ⟨_, _, -, -, -, -, hresolve⟩ := h.resolve_defined (s := s) hq hnone
      rw [hresolve]
      exact fun heq => by cases heq
  rw [finish_of_error
    (resolveReferences_of_error hform hnumbers hok (h.resolve_undefined hp hnil) hcrash)]
  exact congrArg Except.error (withLanguage_annotate p.pending)

theorem Form.AllTidy.literals (hform : form.AllTidy) :
    ∀ text ∈ form.literals, ¬ markStart <:+: text := by
  intro text htext
  refine Tidy.not_isInfix ?_
  rcases List.mem_append.1 htext with htext | htext
  · obtain ⟨place, hplace, rfl⟩ := List.mem_map.1 htext
    exact hform.1 place hplace
  · rw [List.mem_singleton.1 htext]
    exact hform.2

/-- **The last steps** resolve the references of a text whose ledger is complete. -/
theorem Complete.resolves (h : Complete trace draft) (htitles : TidyTitles draft.registry)
    (hmarks : ∀ (k : Nat) (p : Performance), (referring trace)[k]? = some p → p.output = mark k)
    (hform : form.AllTidy) (hledger : Ledger trace 0 (referring trace).length form.numbers)
    (node : Node) :
    Resolves s trace (form.fill mark) form
      ((finish s node (form.fill mark) draft).mapError s.withLanguage) := by
  have hbounds : ∀ k ∈ form.numbers, k < (referring trace).length := fun k hk =>
    (hledger.bounds k hk).2
  have hreferred : ∀ k ∈ form.numbers, ∃ p, (referring trace)[k]? = some p := fun k hk =>
    ⟨_, List.getElem?_eq_getElem (hbounds k hk)⟩
  have hfirst : ∀ (before after : List Nat) (k : Nat) (p : Performance),
      form.numbers = before ++ k :: after → (referring trace)[k]? = some p →
      definitionsOf trace p.pending.label = [] →
      (∀ j ∈ before, ∀ q, (referring trace)[j]? = some q →
        definitionsOf trace q.pending.label ≠ []) →
      (finish s node (form.fill mark) draft).mapError s.withLanguage =
        .error (undefinedFault s p.pending) :=
    fun _ _ _ _ hnumbers hp hnil hbefore =>
      h.finish_undefined hform hreferred hnumbers hp hnil hbefore node
  have hcomplete : ∀ k < (referring trace).length,
      k ∈ form.numbers ∨ ∃ p ∈ performances trace, p.Drops k :=
    fun k hk => hledger.complete k (Nat.zero_le k) hk
  by_cases hmissing : ∃ k ∈ form.numbers, ∃ p, (referring trace)[k]? = some p ∧
      definitionsOf trace p.pending.label = []
  · obtain ⟨before, k, after, hnumbers, ⟨p, hp, hnil⟩, hbefore⟩ := exists_first hmissing
    have hfault := hfirst before after k p hnumbers hp hnil fun j hj q hq hnone =>
      hbefore j hj ⟨q, hq, hnone⟩
    refine ⟨rfl, hform.literals, hmarks, hledger.ascending, hbounds, hcomplete, ?_, ?_, hfirst⟩
    · intro expanded hexpanded
      cases hfault.symm.trans hexpanded
    · exact iff_of_true ⟨_, hfault, isUndefined_undefinedFault p.pending⟩ hmissing
  · have hdefined : ∀ k ∈ form.numbers, ∃ p, (referring trace)[k]? = some p ∧
        definitionsOf trace p.pending.label ≠ [] := by
      intro k hk
      obtain ⟨p, hp⟩ := hreferred k hk
      exact ⟨p, hp, fun hnil => hmissing ⟨k, hk, p, hp, hnil⟩⟩
    refine ⟨rfl, hform.literals, hmarks, hledger.ascending, hbounds, hcomplete, ?_, ?_, hfirst⟩
    · intro expanded hexpanded
      rcases h.finish_defined (s := s) htitles hform hdefined node with
        ⟨expanded', hok, hlinked⟩ | ⟨fault, hfault, -⟩
      · cases hok.symm.trans hexpanded
        exact hlinked
      · cases hfault.symm.trans hexpanded
    · refine iff_of_false ?_ hmissing
      rintro ⟨fault, hfault, hundefined⟩
      rcases h.finish_defined (s := s) htitles hform hdefined node with
        ⟨expanded, hok, -⟩ | ⟨fault', hother, hnot⟩
      · cases hok.symm.trans hfault
      · cases hother.symm.trans hfault
        exact hnot hundefined

end Finish

end

/-! ## Passes -/

/-- A pass whose root document is expanded has kept record and ledger. -/
theorem exists_form_of_manuscript {fetch : Fetcher} {services : Services} {s : Setting} {root : Bytes}
    (hroot : Path.isAbsolute s.resolver.root = true)
    (htidy : ∀ text ∈ readings fetch services (s, root), Tidy text) {node : Node} {raw : Bytes}
    {draft : Draft} (h : manuscript fetch services (s, root) = .ok ((node, raw), draft)) :
    ∃ form : Form, form.AllTidy ∧ form.fill mark = raw ∧ TidyTitles draft.registry ∧
      Recorded { registry := { lang := s.lang.id } } (conversation fetch services (s, root)) draft ∧
      Ledger (conversation fetch services (s, root)) 0
        (referring (conversation fetch services (s, root))).length form.numbers := by
  obtain ⟨trace, r, hr, hruns, ⟨event, hconversation⟩, -⟩ := runs_alone fetch services s root
  rw [h] at hr
  subst hr
  have hgiven : ∀ e ∈ trace, (recording (conversation fetch services (s, root))).given e := by
    intro e he
    have hmem : e ∈ conversation fetch services (s, root) := by
      rw [hconversation]
      exact List.mem_append_left _ he
    refine ⟨fun text htext => htidy text ?_, hmem⟩
    exact List.mem_append_right _ (List.mem_flatMap.2 ⟨e, hmem, htext⟩)
  obtain ⟨hrecorded, -, htitles, ks, hmarked, hledger⟩ :=
    holds_expandFile_written hroot (fun text htext => htidy text (List.mem_append_left _ htext))
      [] root 0 _ (by simp [TidyTitles]) trace _ hruns hgiven
  have hcounted : Recorded draft [⟨.count event, ()⟩] draft := recorded_of_silent ⟨rfl, rfl, rfl, rfl, id⟩
  have hwhole := hrecorded.trans hcounted
  rw [← hconversation] at hwhole
  obtain ⟨form, hform, hfill, rfl⟩ := hmarked.exists_form
  refine ⟨form, hform, hfill, htitles, hwhole, ?_⟩
  rw [hwhole.pending] at hledger
  simpa using hledger

/-- **References.** Consider any book whose texts are plain.

If its documents cannot be expanded, then the pass fails with the fault of that. If they can, the text
has a form: its places are where references have left their marks, in the order in which the references
were made, and only those are missing that were in an argument which some directive does not print.

If the pass succeeds, its text is the form with links. Each link has the label of its reference and the
number that is printed by the one definition of this label, of whatever type, in whatever document, and
before the reference or after it. No mark is left. The pass fails for a missing definition exactly if
there is a reference in the text whose label nothing defines, and then it names the label and the place
of the first one. -/
theorem expand_references (fetch : Fetcher) (services : Services) (s : Setting) (root : Bytes)
    (hroot : Path.isAbsolute s.resolver.root = true)
    (hplain : ∀ text ∈ readings fetch services (s, root), Plain text) :
    (∀ fault, manuscript fetch services (s, root) = .error fault →
      alone fetch services (s, root) = .error (s.withLanguage fault)) ∧
    ∀ node raw draft, manuscript fetch services (s, root) = .ok ((node, raw), draft) →
      ∃ form, Resolves s (conversation fetch services (s, root)) raw form
        (alone fetch services (s, root)) := by
  obtain ⟨_, _, hr, -, -, halone⟩ := runs_alone fetch services s root
  rw [← hr] at halone
  refine ⟨fun fault hfault => ?_, fun node raw draft hok => ?_⟩
  · rw [halone, hfault]
    rfl
  · obtain ⟨form, hform, rfl, htitles, hrecorded, hledger⟩ :=
      exists_form_of_manuscript hroot (fun text htext => (hplain text htext).tidy) hok
    obtain ⟨entries, hentries, hdefines⟩ := hrecorded.definitions
    have hcomplete : Complete (conversation fetch services (s, root)) draft := by
      refine ⟨hrecorded.pending, ?_, hrecorded.sound (Label.Registry.sound_empty _)⟩
      rw [hentries]
      exact hdefines
    have hmarks : ∀ (k : Nat) (p : Performance),
        (referring (conversation fetch services (s, root)))[k]? = some p → p.output = mark k := by
      intro k p hp
      simpa using hrecorded.marks k p hp
    rw [halone, hok]
    exact ⟨form, hcomplete.resolves htitles hmarks hform hledger node⟩

/-- A book that refers to what it defines later. -/
def forwardSetting : Setting where
  tree :=
    { entries :=
        [([bytes "b"], .directory),
          ([bytes "b", bytes "book.md"],
            .file (bytes "See \\def.ref\x7bp\x7d.\n\\definition\x7btheorem\x7d\x7bp\x7d\x7bBody\x7d\n"))] }
  resolver := { root := bytes "/b" }

def text? (result : Except Fault Expanded) : Option Bytes := result.toOption.map Expanded.text

theorem text?_eq_some {result : Except Fault Expanded} {text : Bytes} :
    text? result = some text ↔ ∃ expanded, result = .ok expanded ∧ expanded.text = text := by
  cases result with
  | error fault => simp [text?, Except.toOption]
  | ok expanded => simp [text?, Except.toOption]

/-- The reference becomes the link to the definition behind it. -/
theorem expand_references_forward :
    Path.isAbsolute forwardSetting.resolver.root = true ∧
      (∀ text ∈ readings (fun _ _ => .error .other) {} (forwardSetting, bytes "/b/book.md"),
        Plain text) ∧
      text? (alone (fun _ _ => .error .other) {} (forwardSetting, bytes "/b/book.md")) =
        some (bytes "See [Theorem 1](#def:p).\n\n[**Theorem 1**]\x7b#def:p\x7d: Body\n") ∧
      ∃ raw form, Resolves forwardSetting
        (conversation (fun _ _ => .error .other) {} (forwardSetting, bytes "/b/book.md")) raw form
        (alone (fun _ _ => .error .other) {} (forwardSetting, bytes "/b/book.md")) := by
  have hplain : ∀ text ∈ readings (fun _ _ => .error .other) {} (forwardSetting, bytes "/b/book.md"),
      Plain text := by decide +kernel
  have htext : text? (alone (fun _ _ => .error .other) {} (forwardSetting, bytes "/b/book.md")) =
      some (bytes "See [Theorem 1](#def:p).\n\n[**Theorem 1**]\x7b#def:p\x7d: Body\n") := by
    decide +kernel
  obtain ⟨hfails, hresolves⟩ := expand_references _ {} forwardSetting _ rfl hplain
  refine ⟨rfl, hplain, htext, ?_⟩
  cases hresult : manuscript (fun _ _ => .error .other) {} (forwardSetting, bytes "/b/book.md") with
  | error fault =>
    rw [hfails fault hresult] at htext
    cases htext
  | ok result => exact ⟨_, hresolves _ _ _ hresult⟩

/-- A book with bytes that make a mark when the empty text between them is printed. -/
def splitSetting : Setting where
  tree :=
    { entries :=
        [([bytes "b"], .directory),
          ([bytes "b", bytes "book.md"],
            .file (bytes "---\nk: ''\n---\n" ++ [0xEE] ++ bytes "\\meta\x7bk\x7d" ++ [0x80, 0x80] ++
              bytes "1" ++ markEnd ++ bytes " \\def.ref\x7bp\x7d\n\\def.ref\x7bq\x7d\n"))] }
  resolver := { root := bytes "/b" }

/-- The label in the fault of a pass that fails. -/
def missingLabel? : Except Fault Expanded → Option Bytes
  | .ok _ => none
  | .error fault =>
    match fault.report?.bind fun report => report.context.lookup (bytes "key") with
    | some (.str label) => some label
    | _ => none

/-- In a book that is not well-formed, a mark can arise without U+E000 in any text that is read. Neither
label is defined here, and the fault is that of the second reference. -/
theorem not_resolves_split :
    (∀ text ∈ readings (fun _ _ => .error .other) {} (splitSetting, bytes "/b/book.md"),
      ¬ firstPrivate <:+: text) ∧
    ∃ node raw draft,
      manuscript (fun _ _ => .error .other) {} (splitSetting, bytes "/b/book.md") =
        .ok ((node, raw), draft) ∧
      missingLabel? (alone (fun _ _ => .error .other) {} (splitSetting, bytes "/b/book.md")) =
        some (bytes "q") ∧
      ¬ ∃ form, Resolves splitSetting
        (conversation (fun _ _ => .error .other) {} (splitSetting, bytes "/b/book.md")) raw form
        (alone (fun _ _ => .error .other) {} (splitSetting, bytes "/b/book.md")) := by
  have hlabel : missingLabel?
      (alone (fun _ _ => .error .other) {} (splitSetting, bytes "/b/book.md")) =
        some (bytes "q") := by decide +kernel
  have hperformances : performances
      (conversation (fun _ _ => .error .other) {} (splitSetting, bytes "/b/book.md")) =
        [⟨bytes "/b/book.md", 4, .metadata, [bytes "k"], []⟩,
          ⟨bytes "/b/book.md", 4, .reference, [bytes "p"], mark 0⟩,
          ⟨bytes "/b/book.md", 5, .reference, [bytes "q"], mark 1⟩] := by decide +kernel
  have hexpanded : (manuscript (fun _ _ => .error .other) {}
      (splitSetting, bytes "/b/book.md")).isOk = true := by decide +kernel
  have hreferring : referring
      (conversation (fun _ _ => .error .other) {} (splitSetting, bytes "/b/book.md")) =
        [⟨bytes "/b/book.md", 4, .reference, [bytes "p"], mark 0⟩,
          ⟨bytes "/b/book.md", 5, .reference, [bytes "q"], mark 1⟩] := by
    rw [referring, hperformances]
    decide
  have hdefinitions : ∀ label, definitionsOf
      (conversation (fun _ _ => .error .other) {} (splitSetting, bytes "/b/book.md")) label = [] := by
    intro label
    have hnone : defining
        (conversation (fun _ _ => .error .other) {} (splitSetting, bytes "/b/book.md")) = [] := by
      rw [defining, hperformances]
      decide
    rw [definitionsOf, hnone]
    rfl
  refine ⟨by decide +kernel, ?_⟩
  cases hresult : manuscript (fun _ _ => .error .other) {} (splitSetting, bytes "/b/book.md") with
  | error fault =>
    rw [hresult] at hexpanded
    cases hexpanded
  | ok result =>
    refine ⟨_, _, _, rfl, hlabel, ?_⟩
    rintro ⟨form, hform⟩
    -- No argument has room for a mark, so the first reference stands in the text, before all others.
    have hzero : 0 ∈ form.numbers := by
      refine (hform.complete 0 (by rw [hreferring]; decide)).resolve_right ?_
      rintro ⟨p, hp, i, arg, harg, -, hinfix⟩
      have hlength := hinfix.length_le
      have hshort : ∀ p ∈ performances
          (conversation (fun _ _ => .error .other) {} (splitSetting, bytes "/b/book.md")),
          ∀ arg ∈ p.args, arg.length < (mark 0).length := by
        rw [hperformances]
        decide
      exact absurd (hshort p hp arg (List.mem_of_getElem? harg)) (Nat.not_lt.2 hlength)
    obtain ⟨after, hnumbers⟩ : ∃ after, form.numbers = 0 :: after := by
      have hascending := hform.ascending
      cases hnumbers : form.numbers with
      | nil => simp [hnumbers] at hzero
      | cons k after =>
        rw [hnumbers] at hzero hascending
        rcases List.mem_cons.1 hzero with rfl | hlater
        · exact ⟨after, rfl⟩
        · exact absurd ((List.pairwise_cons.1 hascending).1 0 hlater) (Nat.not_lt_zero k)
    have hfault := hform.first [] after 0 _ hnumbers (by rw [hreferring]; rfl) (hdefinitions _)
      (by simp)
    rw [hfault] at hlabel
    exact absurd hlabel (by decide +kernel)

end Bindery.Expansion
