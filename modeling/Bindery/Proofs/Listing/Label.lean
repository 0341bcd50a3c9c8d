import Bindery.Proofs.Listing.Extract
import Bindery.Proofs.Listing.Marker

/-!
# Labels one by one

Scanning follows all requested labels in one walk over the lines, with lists of the labels that are
active and of those that hold for the present line. The labels do not meet in it: the walk is one
automaton for each label, which reads the markers of that label alone. Scanning fails when an automaton
does, and a line is selected when one of them selects it.
-/

namespace Bindery.Listing

open Text

/-! ## Lines and their markers -/

/-- A physical line of a file, taken apart into its text and the markers at its end. -/
structure MarkedLine where
  number : Nat
  text : Bytes
  markers : List Marker
  deriving DecidableEq, Repr

/-- Whether the line held nothing but markers. -/
def MarkedLine.dropped (l : MarkedLine) : Bool := !l.markers.isEmpty && isWhite l.text

/-- What the markers of one label are, from left to right, among those of a line. -/
def kindsOf (label : Bytes) (markers : List Marker) : List MarkerKind :=
  (markers.filter (·.label == label)).map (·.kind)

section

variable (comments labels : List Bytes)

def markedLine (number : Nat) (line : Bytes) : MarkedLine :=
  let (text, markers) := stripMarkers comments labels (trimEnd isBlank line)
  { number, text, markers }

/-- Takes lines apart; the first one has the number given. -/
def markedLines : Nat → List Bytes → List MarkedLine
  | _, [] => []
  | number, line :: rest =>
    markedLine comments labels number line :: markedLines (number + 1) rest

end

/-! ## The automaton of a label -/

/-- How a label stands on a line: whether it is active for the lines that follow, and whether it
includes this one. -/
structure Standing where
  active : Bool
  included : Bool
  deriving DecidableEq, Repr

/-- What a marker of the label does. A label that starts does not include the line of its marker, a label
that ends does not either; the other two decide for the line alone. -/
def Standing.step (s : Standing) : MarkerKind → Except MarkerProblem Standing
  | .start => if s.active then .error .startedTwice else .ok { s with active := true }
  | .stop => if s.active then .ok { active := false, included := false } else .error .notStarted
  | .add => if s.included then .error .alreadyIncluded else .ok { s with included := true }
  | .remove => if s.included then .ok { s with included := false } else .error .alreadyExcluded

def Standing.steps (s : Standing) (kinds : List MarkerKind) : Except MarkerProblem Standing :=
  kinds.foldlM Standing.step s

/-- Follows a label from line to line. Returns the numbers of the lines that it includes, and whether it
is active behind the last one. -/
def follow (label : Bytes) : Bool → List MarkedLine → Except MarkerProblem (List Nat × Bool)
  | active, [] => .ok ([], active)
  | active, l :: rest => do
    let s ← Standing.steps { active, included := active } (kindsOf label l.markers)
    let (numbers, last) ← follow label s.active rest
    .ok (if s.included then l.number :: numbers else numbers, last)

/-- The numbers of the lines that a label includes; none when its markers are out of order. -/
def included (label : Bytes) (active : Bool) (lines : List MarkedLine) : List Nat :=
  ((follow label active lines).toOption.map Prod.fst).getD []

/-- Whether a label, not active at first, goes through the lines without fault, is not active behind the
last one and includes a line that is kept. -/
def Selects (label : Bytes) (lines : List MarkedLine) : Prop :=
  ∃ numbers, follow label false lines = .ok (numbers, false) ∧
    ∃ l ∈ lines, l.dropped = false ∧ l.number ∈ numbers

/-! ## One line -/

/-- How a label stands in the state of a scan. -/
def LabelState.standing (s : LabelState) (label : Bytes) : Standing :=
  { active := decide (label ∈ s.active), included := decide (label ∈ s.current) }

/-- A marker that the automaton of its label refuses is refused. -/
theorem LabelState.apply_of_error {s : LabelState} {m : Marker} {problem : MarkerProblem}
    (h : (s.standing m.label).step m.kind = .error problem) : s.apply m = .error problem := by
  cases hkind : m.kind <;>
    simp only [hkind, Standing.step, standing, decide_eq_true_eq, apply,
      List.elem_eq_mem] at h ⊢ <;>
    split <;> simp_all

/-- A marker that the automaton of its label takes moves that label on, and no other. -/
theorem LabelState.exists_apply {s : LabelState} {m : Marker} {next : Standing}
    (h : (s.standing m.label).step m.kind = .ok next) :
    ∃ s', s.apply m = .ok s' ∧ s'.standing m.label = next ∧
      ∀ label ≠ m.label, s'.standing label = s.standing label := by
  cases hkind : m.kind <;>
    simp only [hkind, Standing.step, standing, decide_eq_true_eq, apply,
      List.elem_eq_mem] at h ⊢ <;>
    split at h <;> simp_all

theorem Standing.steps_cons (s : Standing) (kind : MarkerKind) (kinds : List MarkerKind) :
    s.steps (kind :: kinds) = (s.step kind).bind fun next => next.steps kinds := rfl

theorem kindsOf_cons_self (m : Marker) (rest : List Marker) :
    kindsOf m.label (m :: rest) = m.kind :: kindsOf m.label rest := by
  simp [kindsOf]

theorem kindsOf_cons_of_ne {m : Marker} {label : Bytes} (h : label ≠ m.label) (rest : List Marker) :
    kindsOf label (m :: rest) = kindsOf label rest := by
  simp [kindsOf, Ne.symm h]

/-- After the markers of a line every label stands where its own markers brought it. -/
theorem LabelState.standing_of_applyAll {line : Nat} {markers : List Marker} {s s' : LabelState}
    (h : applyAll line s markers = .ok s') (label : Bytes) :
    (s.standing label).steps (kindsOf label markers) = .ok (s'.standing label) := by
  induction markers generalizing s with
  | nil =>
    obtain rfl := Except.ok.inj h
    rfl
  | cons m rest ih =>
    rw [applyAll] at h
    cases hstep : (s.standing m.label).step m.kind with
    | error problem =>
      rw [apply_of_error hstep] at h
      cases h
    | ok next =>
      obtain ⟨after, happly, rfl, hothers⟩ := exists_apply hstep
      rw [happly] at h
      have hrest := ih h
      by_cases hlabel : label = m.label
      · subst hlabel
        rw [kindsOf_cons_self, Standing.steps_cons, hstep]
        exact hrest
      · rw [kindsOf_cons_of_ne hlabel, ← hothers label hlabel]
        exact hrest

/-- The markers of a line are taken when every label takes its own. -/
theorem LabelState.exists_applyAll (line : Nat) {markers : List Marker} {s : LabelState}
    (h : ∀ label ∈ markers.map (·.label), ∃ next,
      (s.standing label).steps (kindsOf label markers) = .ok next) :
    ∃ s', applyAll line s markers = .ok s' := by
  induction markers generalizing s with
  | nil => exact ⟨s, rfl⟩
  | cons m rest ih =>
    obtain ⟨last, hlast⟩ := h m.label (by simp)
    rw [kindsOf_cons_self, Standing.steps_cons] at hlast
    obtain ⟨next, hstep, hmore⟩ := exists_of_bind_eq_ok hlast
    obtain ⟨after, happly, rfl, hothers⟩ := exists_apply hstep
    rw [applyAll, happly]
    apply ih
    intro label hlabel
    by_cases heq : label = m.label
    · exact heq ▸ ⟨last, hmore⟩
    · obtain ⟨next, hnext⟩ := h label (List.mem_cons_of_mem _ hlabel)
      rw [kindsOf_cons_of_ne heq, ← hothers label heq] at hnext
      exact ⟨next, hnext⟩

/-! ## All lines -/

section

variable {comments labels : List Bytes}

theorem label_mem_of_markedLine {number : Nat} {line : Bytes} :
    ∀ label ∈ (markedLine comments labels number line).markers.map (·.label), label ∈ labels := by
  intro label hlabel
  obtain ⟨m, hm, rfl⟩ := List.mem_map.1 hlabel
  exact Marker.isOf_iff.1 (isOf_of_mem_stripMarkers m hm)

theorem number_le_of_mem_markedLines {ls : List Bytes} {number : Nat} :
    ∀ l ∈ markedLines comments labels number ls, number ≤ l.number := by
  induction ls generalizing number with
  | nil => simp [markedLines]
  | cons line rest ih =>
    refine List.forall_mem_cons.2 ⟨Nat.le_refl _, fun l hl => ?_⟩
    exact Nat.le_of_succ_le (ih l hl)

/-- A step of the scan on a line taken apart. -/
theorem scanLinesFrom_cons (number : Nat) (active contributed : List Bytes) (line : Bytes)
    (rest : List Bytes) :
    scanLinesFrom comments labels number active contributed (line :: rest) =
      (LabelState.applyAll number { active, current := active }
        (markedLine comments labels number line).markers).bind fun state =>
      if (markedLine comments labels number line).dropped then
        scanLinesFrom comments labels (number + 1) state.active contributed rest
      else
        (scanLinesFrom comments labels (number + 1) state.active (contributed ++ state.current)
          rest).bind fun (kept, active, contributed) =>
        .ok ({ number, text := (markedLine comments labels number line).text,
               selected := labels.isEmpty || !state.current.isEmpty } :: kept, active, contributed) := by
  rfl

theorem follow_cons (label : Bytes) (active : Bool) (l : MarkedLine) (rest : List MarkedLine) :
    follow label active (l :: rest) =
      (Standing.steps { active, included := active } (kindsOf label l.markers)).bind fun s =>
      (follow label s.active rest).bind fun (numbers, last) =>
      .ok (if s.included then l.number :: numbers else numbers, last) := rfl

theorem exists_mem_of_mem_follow {label : Bytes} {active last : Bool} {lines : List MarkedLine}
    {numbers : List Nat} (h : follow label active lines = .ok (numbers, last)) :
    ∀ n ∈ numbers, ∃ l ∈ lines, l.number = n := by
  induction lines generalizing active numbers last with
  | nil =>
    obtain ⟨rfl, -⟩ := Prod.mk.inj (Except.ok.inj h)
    simp
  | cons l rest ih =>
    rw [follow_cons] at h
    obtain ⟨s, -, h⟩ := exists_of_bind_eq_ok h
    obtain ⟨⟨numbers', last'⟩, hrest, h⟩ := exists_of_bind_eq_ok h
    obtain ⟨rfl, -⟩ := Prod.mk.inj (Except.ok.inj h)
    intro n hn
    have hlater : n ∈ numbers' → ∃ x ∈ l :: rest, x.number = n := by
      intro hn
      obtain ⟨x, hx, hnumber⟩ := ih hrest n hn
      exact ⟨x, List.mem_cons_of_mem _ hx, hnumber⟩
    split at hn
    · rcases List.mem_cons.1 hn with rfl | hn
      · exact ⟨l, List.mem_cons_self, rfl⟩
      · exact hlater hn
    · exact hlater hn

/-- A scan of a line and those behind it: every label moves on by its own markers, and the line is kept
unless it held only markers. -/
theorem exists_of_scanLinesFrom_cons {number : Nat} {active contributed active' contributed' : List Bytes}
    {line : Bytes} {rest : List Bytes} {kept : List SourceLine}
    (h : scanLinesFrom comments labels number active contributed (line :: rest) =
      .ok (kept, active', contributed')) :
    ∃ state : LabelState,
      (∀ label, Standing.steps { active := decide (label ∈ active), included := decide (label ∈ active) }
        (kindsOf label (markedLine comments labels number line).markers) = .ok (state.standing label)) ∧
      (((markedLine comments labels number line).dropped = true ∧
          scanLinesFrom comments labels (number + 1) state.active contributed rest =
            .ok (kept, active', contributed')) ∨
        ((markedLine comments labels number line).dropped = false ∧
          ∃ kept', scanLinesFrom comments labels (number + 1) state.active (contributed ++ state.current)
              rest = .ok (kept', active', contributed') ∧
            kept = { number, text := (markedLine comments labels number line).text,
                     selected := labels.isEmpty || !state.current.isEmpty } :: kept')) := by
  rw [scanLinesFrom_cons] at h
  obtain ⟨state, hstate, h⟩ := exists_of_bind_eq_ok h
  refine ⟨state, LabelState.standing_of_applyAll hstate, ?_⟩
  split at h
  · next hdropped => exact .inl ⟨hdropped, h⟩
  · next hkept =>
    obtain ⟨⟨kept', a, c⟩, hrest, h⟩ := exists_of_bind_eq_ok h
    obtain ⟨rfl, hend⟩ := Prod.mk.inj (Except.ok.inj h)
    obtain ⟨rfl, rfl⟩ := Prod.mk.inj hend
    exact .inr ⟨by simpa using hkept, kept', hrest, rfl⟩

theorem kindsOf_eq_nil {label s : Bytes} (hlabel : label ∉ labels) :
    kindsOf label (stripMarkers comments labels s).2 = [] := by
  rw [kindsOf, List.map_eq_nil_iff, List.filter_eq_nil_iff]
  intro m hm heq
  exact hlabel (eq_of_beq heq ▸ Marker.isOf_iff.1 (isOf_of_mem_stripMarkers m hm))

theorem subset_of_steps {number : Nat} {line : Bytes} {active : List Bytes} {state : LabelState}
    (hactive : active ⊆ labels)
    (h : ∀ label, Standing.steps
      { active := decide (label ∈ active), included := decide (label ∈ active) }
      (kindsOf label (markedLine comments labels number line).markers) = .ok (state.standing label)) :
    state.active ⊆ labels ∧ state.current ⊆ labels := by
  have hout : ∀ label, label ∉ labels → label ∉ state.active ∧ label ∉ state.current := by
    intro label hlabel
    have hmem : label ∉ active := fun hmem => hlabel (hactive hmem)
    have heq := h label
    rw [markedLine, kindsOf_eq_nil hlabel] at heq
    simpa [LabelState.standing, hmem] using (Except.ok.inj heq).symm
  exact ⟨fun label hmem => Decidable.byContradiction fun hlabel => (hout label hlabel).1 hmem,
    fun label hmem => Decidable.byContradiction fun hlabel => (hout label hlabel).2 hmem⟩

/-- The kept lines, given the numbers that each label includes. -/
def keptLines (labels : List Bytes) (numbers : Bytes → List Nat) (lines : List MarkedLine) :
    List SourceLine :=
  (lines.filter (!·.dropped)).map fun l =>
    { number := l.number, text := l.text,
      selected := labels.isEmpty || labels.any fun label => decide (l.number ∈ numbers label) }

theorem keptLines_congr {numbers numbers' : Bytes → List Nat} {lines : List MarkedLine}
    (h : ∀ l ∈ lines, ∀ label ∈ labels, l.number ∈ numbers label ↔ l.number ∈ numbers' label) :
    keptLines labels numbers lines = keptLines labels numbers' lines := by
  refine List.map_congr_left fun l hl => ?_
  have hany : (labels.any fun label => decide (l.number ∈ numbers label)) =
      labels.any fun label => decide (l.number ∈ numbers' label) := by
    rw [Bool.eq_iff_iff]
    simp only [List.any_eq_true, decide_eq_true_eq]
    exact exists_congr fun label =>
      and_congr_right fun hlabel => h l (List.mem_of_mem_filter hl) label hlabel
  rw [hany]

/-- Adds the number of a line to those that the labels of the line include. -/
def addLine (current : List Bytes) (number : Nat) (numbers : Bytes → List Nat) (label : Bytes) :
    List Nat :=
  if label ∈ current then number :: numbers label else numbers label

theorem mem_addLine {current : List Bytes} {number n : Nat} {numbers : Bytes → List Nat}
    {label : Bytes} :
    n ∈ addLine current number numbers label ↔
      (label ∈ current ∧ n = number) ∨ n ∈ numbers label := by
  rw [addLine]
  split <;> simp_all

section

variable {l : MarkedLine} {later : List MarkedLine} {current : List Bytes}
  {numbers : Bytes → List Nat} (hlater : ∀ x ∈ later, l.number < x.number)

include hlater in
/-- The number of a line says nothing about the lines behind it. -/
theorem mem_addLine_of_mem {label : Bytes} {x : MarkedLine} (hx : x ∈ later) :
    x.number ∈ addLine current l.number numbers label ↔ x.number ∈ numbers label := by
  simp [mem_addLine, (hlater x hx).ne']

include hlater in
theorem exists_mem_addLine {label : Bytes} (hnot : l.number ∉ numbers label) :
    (∃ x ∈ l :: later, x.dropped = false ∧ x.number ∈ addLine current l.number numbers label) ↔
      (l.dropped = false ∧ label ∈ current) ∨
        ∃ x ∈ later, x.dropped = false ∧ x.number ∈ numbers label := by
  rw [List.exists_mem_cons_iff]
  refine or_congr (and_congr_right fun _ => by simp [mem_addLine, hnot]) ?_
  exact exists_congr fun x => and_congr_right fun hx =>
    and_congr_right fun _ => mem_addLine_of_mem hlater hx

include hlater in
theorem keptLines_addLine (hcurrent : current ⊆ labels) (hnot : ∀ label, l.number ∉ numbers label) :
    keptLines labels (addLine current l.number numbers) (l :: later) =
      if l.dropped then keptLines labels numbers later
      else { number := l.number, text := l.text, selected := labels.isEmpty || !current.isEmpty } ::
        keptLines labels numbers later := by
  have hrest : keptLines labels (addLine current l.number numbers) later =
      keptLines labels numbers later :=
    keptLines_congr fun x hx label _ => mem_addLine_of_mem hlater hx
  have hhere : (labels.any fun label => decide (l.number ∈ addLine current l.number numbers label)) =
      !current.isEmpty := by
    rw [Bool.eq_iff_iff]
    simp only [List.any_eq_true, decide_eq_true_eq, mem_addLine, hnot, and_true, or_false,
      Bool.not_eq_true', List.isEmpty_eq_false_iff_exists_mem]
    exact exists_congr fun label => and_iff_right_of_imp fun h => hcurrent h
  rw [← hrest]
  cases hdropped : l.dropped <;> simp [keptLines, hdropped, hhere]

end

/-- A scan that succeeds followed every label without fault. -/
theorem exists_of_scanLinesFrom {ls : List Bytes} {number : Nat}
    {active contributed active' contributed' : List Bytes} {kept : List SourceLine}
    (hactive : active ⊆ labels)
    (h : scanLinesFrom comments labels number active contributed ls =
      .ok (kept, active', contributed')) :
    ∃ numbers : Bytes → List Nat,
      (∀ label, follow label (decide (label ∈ active)) (markedLines comments labels number ls) =
        .ok (numbers label, decide (label ∈ active'))) ∧
      (∀ label, label ∈ contributed' ↔ label ∈ contributed ∨
        ∃ l ∈ markedLines comments labels number ls, l.dropped = false ∧ l.number ∈ numbers label) ∧
      kept = keptLines labels numbers (markedLines comments labels number ls) := by
  induction ls generalizing number active contributed kept with
  | nil =>
    obtain ⟨rfl, hend⟩ := Prod.mk.inj (Except.ok.inj h)
    obtain ⟨rfl, rfl⟩ := Prod.mk.inj hend
    exact ⟨fun _ => [], fun _ => rfl, by simp [markedLines], rfl⟩
  | cons line rest ih =>
    obtain ⟨state, hsteps, hrest⟩ := exists_of_scanLinesFrom_cons h
    obtain ⟨hactive', hcurrent⟩ := subset_of_steps hactive hsteps
    have hlater : ∀ x ∈ markedLines comments labels (number + 1) rest,
        (markedLine comments labels number line).number < x.number :=
      fun x hx => number_le_of_mem_markedLines x hx
    have hfollow : ∀ {numbers : Bytes → List Nat},
        (∀ label, follow label (decide (label ∈ state.active))
          (markedLines comments labels (number + 1) rest) =
            .ok (numbers label, decide (label ∈ active'))) →
        (∀ label, follow label (decide (label ∈ active))
          (markedLines comments labels number (line :: rest)) =
            .ok (addLine state.current number numbers label, decide (label ∈ active'))) ∧
        (∀ label, number ∉ numbers label) := by
      intro numbers hnumbers
      constructor
      · intro label
        rw [markedLines, follow_cons, hsteps label]
        simp only [Except.bind, LabelState.standing, hnumbers label, decide_eq_true_eq]
        rfl
      · intro label hmem
        obtain ⟨x, hx, heq⟩ := exists_mem_of_mem_follow (hnumbers label) number hmem
        exact (hlater x hx).ne' heq
    rcases hrest with ⟨hdropped, hrest⟩ | ⟨hkeep, kept', hrest, rfl⟩
    · obtain ⟨numbers, hnumbers, hcontributed, rfl⟩ := ih hactive' hrest
      obtain ⟨hall, hnot⟩ := hfollow hnumbers
      refine ⟨_, hall, fun label => ?_, ?_⟩
      · rw [hcontributed label, markedLines]
        refine or_congr_right ((exists_mem_addLine hlater (hnot label)).trans ?_).symm
        simp [hdropped]
      · exact ((keptLines_addLine hlater hcurrent hnot).trans (if_pos hdropped)).symm
    · obtain ⟨numbers, hnumbers, hcontributed, rfl⟩ := ih hactive' hrest
      obtain ⟨hall, hnot⟩ := hfollow hnumbers
      refine ⟨_, hall, fun label => ?_, ?_⟩
      · rw [hcontributed label, markedLines, List.mem_append, or_assoc]
        refine or_congr_right ((exists_mem_addLine hlater (hnot label)).trans ?_).symm
        simp [hkeep]
      · exact ((keptLines_addLine hlater hcurrent hnot).trans (if_neg (by simp [hkeep]))).symm

/-- A scan succeeds when no requested label meets a fault. -/
theorem exists_scanLinesFrom {ls : List Bytes} {number : Nat} {active : List Bytes}
    (contributed : List Bytes)
    (h : ∀ label ∈ labels, ∃ run, follow label (decide (label ∈ active))
      (markedLines comments labels number ls) = .ok run) :
    ∃ found, scanLinesFrom comments labels number active contributed ls = .ok found := by
  induction ls generalizing number active contributed with
  | nil => exact ⟨_, rfl⟩
  | cons line rest ih =>
    have hline : ∀ label ∈ labels, ∃ s, Standing.steps
        { active := decide (label ∈ active), included := decide (label ∈ active) }
        (kindsOf label (markedLine comments labels number line).markers) = .ok s ∧
        ∃ run, follow label s.active (markedLines comments labels (number + 1) rest) = .ok run := by
      intro label hlabel
      obtain ⟨run, hrun⟩ := h label hlabel
      rw [markedLines, follow_cons] at hrun
      obtain ⟨s, hs, hrun⟩ := exists_of_bind_eq_ok hrun
      obtain ⟨run', hrun', -⟩ := exists_of_bind_eq_ok hrun
      exact ⟨s, hs, run', hrun'⟩
    obtain ⟨state, hstate⟩ := LabelState.exists_applyAll (s := { active, current := active }) number
      fun label hlabel =>
        (hline label (label_mem_of_markedLine label hlabel)).imp fun _ hs => hs.1
    have hnext : ∀ label ∈ labels, ∃ run, follow label (decide (label ∈ state.active))
        (markedLines comments labels (number + 1) rest) = .ok run := by
      intro label hlabel
      obtain ⟨s, hs, hrun⟩ := hline label hlabel
      obtain rfl := Except.ok.inj (hs.symm.trans (LabelState.standing_of_applyAll hstate label))
      exact hrun
    rw [scanLinesFrom_cons, hstate]
    simp only [Except.bind]
    split
    · exact ih contributed hnext
    · obtain ⟨⟨kept, a, c⟩, hfound⟩ := ih (contributed ++ state.current) hnext
      rw [hfound]
      exact ⟨_, rfl⟩

end

/-! ## The whole file -/

theorem checkLabels_eq_ok_iff {active contributed labels : List Bytes} :
    checkLabels active contributed labels = .ok () ↔
      ∀ label ∈ labels, label ∉ active ∧ label ∈ contributed := by
  induction labels with
  | nil => simp [checkLabels]
  | cons label rest ih =>
    rw [checkLabels, List.forall_mem_cons, ← ih]
    by_cases hactive : label ∈ active <;> by_cases hcontributed : label ∈ contributed <;>
      simp [hactive, hcontributed]

theorem included_eq {numbers : Bytes → List Nat} {last : Bytes → Bool} {lines : List MarkedLine}
    (h : ∀ label, follow label false lines = .ok (numbers label, last label)) :
    (fun label => included label false lines) = numbers := by
  funext label
  rw [included, h label]
  rfl

section

variable {text : Bytes} {labels comments : List Bytes}

theorem scanLines_eq :
    scanLines text labels comments =
      (scanLinesFrom comments labels 1 [] [] (physicalLines text)).bind fun (kept, active, contributed) =>
        (checkLabels active contributed labels).bind fun _ => .ok kept := rfl

theorem selects_of_scanLines {kept : List SourceLine} (h : scanLines text labels comments = .ok kept) :
    (∀ label ∈ labels, Selects label (markedLines comments labels 1 (physicalLines text))) ∧
      kept = keptLines labels
        (fun label => included label false (markedLines comments labels 1 (physicalLines text)))
        (markedLines comments labels 1 (physicalLines text)) := by
  rw [scanLines_eq] at h
  obtain ⟨⟨kept', active, contributed⟩, hfrom, h⟩ := exists_of_bind_eq_ok h
  obtain ⟨_, hcheck, h⟩ := exists_of_bind_eq_ok h
  obtain rfl := Except.ok.inj h
  obtain ⟨numbers, hnumbers, hcontributed, hkept⟩ := exists_of_scanLinesFrom (List.nil_subset _) hfrom
  rw [included_eq hnumbers]
  refine ⟨fun label hlabel => ?_, hkept⟩
  obtain ⟨hended, hselects⟩ := checkLabels_eq_ok_iff.1 hcheck label hlabel
  refine ⟨numbers label, ?_, ?_⟩
  · simpa [hended] using hnumbers label
  · simpa using (hcontributed label).1 hselects

theorem scanLines_of_selects
    (h : ∀ label ∈ labels, Selects label (markedLines comments labels 1 (physicalLines text))) :
    scanLines text labels comments = .ok (keptLines labels
      (fun label => included label false (markedLines comments labels 1 (physicalLines text)))
      (markedLines comments labels 1 (physicalLines text))) := by
  have hfollow : ∀ label ∈ labels, ∃ run, follow label (decide (label ∈ ([] : List Bytes)))
      (markedLines comments labels 1 (physicalLines text)) = .ok run := fun label hlabel =>
    (h label hlabel).imp' (fun numbers => (numbers, false)) fun _ hrun => hrun.1
  obtain ⟨⟨kept, active, contributed⟩, hfrom⟩ := exists_scanLinesFrom [] hfollow
  obtain ⟨numbers, hnumbers, hcontributed, rfl⟩ := exists_of_scanLinesFrom (List.nil_subset _) hfrom
  have hcheck : checkLabels active contributed labels = .ok () := by
    rw [checkLabels_eq_ok_iff]
    intro label hlabel
    obtain ⟨numbers', hrun, l, hl, hkeep, hmem⟩ := h label hlabel
    obtain ⟨rfl, hlast⟩ := Prod.mk.inj (Except.ok.inj ((hnumbers label).symm.trans hrun))
    exact ⟨of_decide_eq_false hlast, (hcontributed label).2 (.inr ⟨l, hl, hkeep, hmem⟩)⟩
  rw [scanLines_eq, hfrom, included_eq hnumbers]
  simp only [Except.bind, hcheck]

end

/-- **A scan is one automaton for each requested label.** It succeeds when every label goes through the
markers that were found without fault, is not active at the end and includes a line that is kept. The
result are the lines that held not only markers, in order, each with its number in the file, without its
markers, and selected by any label that includes it, or because no label was requested. -/
theorem scanLines_eq_ok_iff (text : Bytes) (labels comments : List Bytes) (kept : List SourceLine) :
    scanLines text labels comments = .ok kept ↔
      (∀ label ∈ labels, Selects label (markedLines comments labels 1 (physicalLines text))) ∧
      kept = keptLines labels
        (fun label => included label false (markedLines comments labels 1 (physicalLines text)))
        (markedLines comments labels 1 (physicalLines text)) :=
  ⟨selects_of_scanLines, fun ⟨hselects, hkept⟩ => hkept ▸ scanLines_of_selects hselects⟩

end Bindery.Listing
