import Mathlib.Data.List.Forall2
import Bindery.Proofs.Expansion.Register
import Bindery.Proofs.Expansion.Stray

/-!
# Where labelled outputs stand

The output of a labelled directive travels through arguments and included documents like any other text:
it is cut at its ends, and other text is written before and behind it. A `Spot` says from which byte to
which it stands. In a text that was written (`Spotted`) the spots come in the order in which their
directives were numbered, and each stands before the next ones or inside of them. A spot that is missing
was in an argument that some directive does not print (`Entered`).
-/

namespace Bindery.Expansion

open Text

/-! ## Spots -/

def Blank (w : Bytes) : Prop := ∀ c ∈ w, ∃ u, IsSpace u ∧ c ∈ u

theorem blank_nil : Blank [] := nofun

theorem Blank.append {v w : Bytes} (hv : Blank v) (hw : Blank w) : Blank (v ++ w) :=
  List.forall_mem_append.2 ⟨hv, hw⟩

theorem Blank.subset {v w : Bytes} (hw : Blank w) (h : v ⊆ w) : Blank v := fun c hc => hw c (h hc)

theorem blank_of_white {w : Bytes} (h : White w) : Blank w := by
  induction h with
  | nil => exact blank_nil
  | cons hc _ ih => exact Blank.append (fun b hb => ⟨_, hc, hb⟩) ih

/-- A text is another without white space at its ends, or with less of it. -/
def Trims (text full : Bytes) : Prop := ∃ v w, full = v ++ (text ++ w) ∧ Blank v ∧ Blank w

theorem Trims.refl (text : Bytes) : Trims text text :=
  ⟨[], [], by simp, blank_nil, blank_nil⟩

theorem Trims.trans {text more full : Bytes} (h : Trims text more) (h' : Trims more full) :
    Trims text full := by
  obtain ⟨v, w, rfl, hv, hw⟩ := h
  obtain ⟨v', w', rfl, hv', hw'⟩ := h'
  exact ⟨v' ++ v, w ++ w', by simp, hv'.append hv, hw.append hw'⟩

/-- The output of a labelled directive in a text: its entry, and the bytes from which to which it
stands. -/
structure Spot where
  entry : Label.Entry
  start : Nat
  stop : Nat
  deriving DecidableEq, Repr

namespace Spot

/-- What stands at a spot of a text. -/
def piece (a : Spot) (text : Bytes) : Bytes := (text.take a.stop).drop a.start

def move (f : Nat → Nat) (a : Spot) : Spot := { a with start := f a.start, stop := f a.stop }

/-- A spot stands before another, or inside of it. -/
def Precedes (a b : Spot) : Prop := a.stop ≤ b.start ∨ b.start ≤ a.start ∧ a.stop ≤ b.stop

theorem Precedes.move {a b : Spot} (h : a.Precedes b) {f : Nat → Nat}
    (hf : ∀ {i j}, i ≤ j → f i ≤ f j) : (a.move f).Precedes (b.move f) := by
  rcases h with hbefore | ⟨hstart, hstop⟩
  · exact .inl (hf hbefore)
  · exact .inr ⟨hf hstart, hf hstop⟩

end Spot

/-- Spots of a text, in the order in which their directives were numbered. At each spot stands the output
of a directive with that label. -/
structure Laid (whole : List Exchange) (text : Bytes) (spots : List Spot) : Prop where
  bounds : ∀ a ∈ spots, a.start ≤ a.stop ∧ a.stop ≤ text.length
  shows : ∀ a ∈ spots, ∃ p ∈ performances whole, p.Labels a.entry ∧ Trims (a.piece text) p.output
  order : spots.Pairwise Spot.Precedes

/-- The places of a text move, and what stands between two of them keeps standing there. -/
theorem Laid.move {whole : List Exchange} {text text' : Bytes} {spots : List Spot}
    (h : Laid whole text spots) {f : Nat → Nat} (hf : ∀ {i j}, i ≤ j → f i ≤ f j)
    (hlength : f text.length ≤ text'.length)
    (hpiece : ∀ i j, i ≤ j → j ≤ text.length →
      Trims ((text'.take (f j)).drop (f i)) ((text.take j).drop i)) :
    Laid whole text' (spots.map (Spot.move f)) := by
  refine ⟨?_, ?_, ?_⟩
  · intro a' ha'
    obtain ⟨a, ha, rfl⟩ := List.mem_map.1 ha'
    obtain ⟨hstart, hstop⟩ := h.bounds a ha
    exact ⟨hf hstart, Nat.le_trans (hf hstop) hlength⟩
  · intro a' ha'
    obtain ⟨a, ha, rfl⟩ := List.mem_map.1 ha'
    obtain ⟨hstart, hstop⟩ := h.bounds a ha
    obtain ⟨p, hp, hlabels, htrims⟩ := h.shows a ha
    exact ⟨p, hp, hlabels, (hpiece _ _ hstart hstop).trans htrims⟩
  · rw [List.pairwise_map]
    exact h.order.imp fun hprecedes => hprecedes.move hf

theorem Laid.append {whole : List Exchange} {text : Bytes} {spots spots' : List Spot} {n : Nat}
    (h : Laid whole text spots) (h' : Laid whole text spots') (hstop : ∀ a ∈ spots, a.stop ≤ n)
    (hstart : ∀ b ∈ spots', n ≤ b.start) : Laid whole text (spots ++ spots') := by
  refine ⟨List.forall_mem_append.2 ⟨h.bounds, h'.bounds⟩,
    List.forall_mem_append.2 ⟨h.shows, h'.shows⟩, ?_⟩
  refine List.pairwise_append.2 ⟨h.order, h'.order, fun a ha b hb => ?_⟩
  exact .inl (Nat.le_trans (hstop a ha) (hstart b hb))

/-- What stands between two places of two texts in a row. -/
theorem drop_take_append {i j : Nat} (h : i ≤ j) (v t : Bytes) :
    ((v ++ t).take j).drop i =
      (v.take j).drop i ++ (t.take (j - v.length)).drop (i - v.length) := by
  rw [List.take_append, List.drop_append, List.length_take]
  congr 2
  omega

/-! ## Texts with spots -/

/-- A text has spots for some entries. -/
def Spotted (whole : List Exchange) (text : Bytes) (es : List Label.Entry) : Prop :=
  ∃ spots, Laid whole text spots ∧ spots.map Spot.entry = es

namespace Spotted

variable {whole : List Exchange} {text text' v w : Bytes} {es es' : List Label.Entry}

theorem bare (whole : List Exchange) (text : Bytes) : Spotted whole text [] :=
  ⟨[], ⟨nofun, nofun, .nil⟩, rfl⟩

theorem move (h : Spotted whole text es) {f : Nat → Nat} (hf : ∀ {i j}, i ≤ j → f i ≤ f j)
    (hlength : f text.length ≤ text'.length)
    (hpiece : ∀ i j, i ≤ j → j ≤ text.length →
      Trims ((text'.take (f j)).drop (f i)) ((text.take j).drop i)) : Spotted whole text' es := by
  obtain ⟨spots, hlaid, hes⟩ := h
  refine ⟨_, hlaid.move hf hlength hpiece, ?_⟩
  rw [← hes, List.map_map]
  rfl

theorem append (h : Spotted whole text es) (h' : Spotted whole text' es') :
    Spotted whole (text ++ text') (es ++ es') := by
  obtain ⟨spots, hlaid, rfl⟩ := h
  obtain ⟨spots', hlaid', rfl⟩ := h'
  have hfront : Laid whole (text ++ text') (spots.map (Spot.move id)) := by
    refine hlaid.move id (by simp) fun i j hij hj => ?_
    change Trims (((text ++ text').take j).drop i) _
    rw [drop_take_append hij, Nat.sub_eq_zero_of_le hj, List.take_zero, List.drop_nil,
      List.append_nil]
    exact .refl _
  have hback : Laid whole (text ++ text') (spots'.map (Spot.move (text.length + ·))) := by
    refine hlaid'.move (fun hij => Nat.add_le_add_left hij _) (by simp) fun i j hij _ => ?_
    rw [drop_take_append (Nat.add_le_add_left hij _), Nat.add_sub_cancel_left,
      Nat.add_sub_cancel_left, List.drop_eq_nil_of_le, List.nil_append]
    · exact .refl _
    · rw [List.length_take]
      omega
  refine ⟨_, hfront.append hback (n := text.length) ?_ ?_, ?_⟩
  · intro a' ha'
    obtain ⟨a, ha, rfl⟩ := List.mem_map.1 ha'
    exact (hlaid.bounds a ha).2
  · intro b' hb'
    obtain ⟨b, -, rfl⟩ := List.mem_map.1 hb'
    exact Nat.le_add_right _ _
  · rw [List.map_append, List.map_map, List.map_map]
    rfl

theorem append_text (h : Spotted whole text es) (more : Bytes) : Spotted whole (text ++ more) es := by
  simpa using h.append (.bare whole more)

theorem of_blank_append (hv : Blank v) (h : Spotted whole (v ++ text) es) : Spotted whole text es := by
  refine h.move (f := (· - v.length)) (fun hij => Nat.sub_le_sub_right hij _) (by simp) ?_
  intro i j hij _
  rw [drop_take_append hij]
  refine ⟨(v.take j).drop i, [], by simp, hv.subset ?_, blank_nil⟩
  exact fun c hc => List.mem_of_mem_take (List.mem_of_mem_drop hc)

theorem of_append_blank (hw : Blank w) (h : Spotted whole (text ++ w) es) : Spotted whole text es := by
  refine h.move (f := (min · text.length)) (fun hij => by omega) (by simp) fun i j hij _ => ?_
  have hcut : (text.take (min j text.length)).drop (min i text.length) = (text.take j).drop i := by
    have htake : text.take (min j text.length) = text.take j := by simp
    rw [htake]
    by_cases hi : i ≤ text.length
    · rw [Nat.min_eq_left hi]
    · rw [List.drop_eq_nil_of_le, List.drop_eq_nil_of_le] <;> rw [List.length_take] <;> omega
  rw [hcut, drop_take_append hij]
  refine ⟨[], (w.take (j - text.length)).drop (i - text.length), by simp, blank_nil, hw.subset ?_⟩
  exact fun c hc => List.mem_of_mem_take (List.mem_of_mem_drop hc)

theorem trim (h : Spotted whole text es) : Spotted whole (trim text) es := by
  obtain ⟨v, w, htext, hv, hw⟩ := exists_white_trim text
  rw [htext] at h
  exact of_blank_append (blank_of_white hv) (of_append_blank (blank_of_white hw) h)

theorem trimNewlines (h : Spotted whole text es) : Spotted whole (trimBoth isNewline text) es := by
  obtain ⟨v, w, htext, hv, hw⟩ := exists_white_trimNewlines text
  rw [htext] at h
  exact of_blank_append (blank_of_white hv) (of_append_blank (blank_of_white hw) h)

theorem place (h : Spotted whole text es) (h' : Spotted whole text' es') (isBlock : Bool)
    (after : Bytes) : Spotted whole (place text isBlock text' after) (es ++ es') := by
  unfold Bindery.place
  split
  · exact ((h.append_text _).append h'.trimNewlines).append_text _
  · exact h.append h'

/-- The output of a directive gets a spot around the spots in it. -/
theorem own {p : Performance} (h : Spotted whole p.output es) (hp : p ∈ performances whole)
    {e : Label.Entry} (hlabels : p.Labels e) : Spotted whole p.output (es ++ [e]) := by
  obtain ⟨spots, hlaid, rfl⟩ := h
  refine ⟨spots ++ [⟨e, 0, p.output.length⟩], ⟨?_, ?_, ?_⟩, by simp⟩
  · refine List.forall_mem_append.2 ⟨hlaid.bounds, List.forall_mem_singleton.2 ?_⟩
    exact ⟨Nat.zero_le _, Nat.le_refl _⟩
  · refine List.forall_mem_append.2 ⟨hlaid.shows, List.forall_mem_singleton.2 ⟨p, hp, hlabels, ?_⟩⟩
    rw [Spot.piece, List.take_length, List.drop_zero]
    exact .refl _
  · refine List.pairwise_append.2 ⟨hlaid.order, List.pairwise_singleton _ _, fun a ha b hb => ?_⟩
    rw [List.mem_singleton.1 hb]
    exact .inr ⟨Nat.zero_le _, (hlaid.bounds a ha).2⟩

theorem exists_rel_append {α β : Type} {R : α → β → Prop} {as as' : List α} {bs : List β}
    (h : List.Forall₂ R (as ++ as') bs) :
    ∃ front back, bs = front ++ back ∧ List.Forall₂ R as front ∧ List.Forall₂ R as' back := by
  have hflip := h.flip
  refine ⟨bs.take as.length, bs.drop as.length, (List.take_append_drop _ _).symm, ?_, ?_⟩
  · exact (List.forall₂_take_append _ _ _ hflip).flip
  · exact (List.forall₂_drop_append _ _ _ hflip).flip

/-- A text that is made of others has their spots. -/
theorem composed {pieces : List Bytes} (h : Composed pieces text) {ess : List (List Label.Entry)}
    (hpieces : List.Forall₂ (Spotted whole) pieces ess) : Spotted whole text ess.flatten := by
  induction h generalizing ess with
  | text text =>
    cases hpieces
    exact .bare whole text
  | piece piece =>
    obtain ⟨es, hes, rfl⟩ : ∃ es, Spotted whole piece es ∧ ess = [es] := by
      cases hpieces with
      | cons hfirst hrest =>
        cases hrest
        exact ⟨_, hfirst, rfl⟩
    simpa using hes
  | append _ _ ih ih' =>
    obtain ⟨front, back, rfl, hfront, hback⟩ := exists_rel_append hpieces
    rw [List.flatten_append]
    exact (ih hfront).append (ih' hback)
  | trim _ ih => exact (ih hpieces).trim

end Spotted

/-! ## Entries without a spot -/

/-- The output that belongs to an entry stands in an argument that a directive does not print. -/
def Lost (whole : List Exchange) (e : Label.Entry) : Prop :=
  ∃ p ∈ performances whole, p.Labels e ∧ ∃ q ∈ performances whole, ∃ i arg piece,
    q.args[i]? = some arg ∧ i ∉ q.directive.printed ∧ piece <:+: arg ∧ Trims piece p.output

/-- The entries with spots in a text that was written between two drafts: they come in the order of the
registry, and those that were added there and have none are lost. -/
def Entered (whole : List Exchange) (d d' : Draft) (es : List Label.Entry) : Prop :=
  ∃ added, d'.registry.entries = d.registry.entries ++ added ∧ es.Sublist added ∧
    ∀ e ∈ added, e ∈ es ∨ Lost whole e

namespace Entered

variable {whole : List Exchange} {d d' d'' : Draft} {es es' : List Label.Entry}

theorem of_entries_eq (h : d'.registry.entries = d.registry.entries) : Entered whole d d' [] :=
  ⟨[], by rw [h, List.append_nil], .slnil, nofun⟩

theorem append (h : Entered whole d d' es) (h' : Entered whole d' d'' es') :
    Entered whole d d'' (es ++ es') := by
  obtain ⟨added, hadded, hsub, hlost⟩ := h
  obtain ⟨added', hadded', hsub', hlost'⟩ := h'
  refine ⟨added ++ added', by rw [hadded', hadded, List.append_assoc], hsub.append hsub', ?_⟩
  intro e he
  rcases List.mem_append.1 he with he | he
  · exact (hlost e he).imp_left (List.mem_append_left es')
  · exact (hlost' e he).imp_left (List.mem_append_right es)

theorem sublist (h : Entered whole d d' es) (hsub : es'.Sublist es)
    (hlost : ∀ e ∈ es, e ∈ es' ∨ Lost whole e) : Entered whole d d' es' := by
  obtain ⟨added, hadded, hsub', hlost'⟩ := h
  refine ⟨added, hadded, hsub.trans hsub', fun e he => ?_⟩
  rcases hlost' e he with hmem | hgone
  · exact hlost e hmem
  · exact .inr hgone

/-- **Arguments** are printed, or the entries with spots in them lost. -/
theorem printed {args : List Bytes} {ess : List (List Label.Entry)}
    (hargs : List.Forall₂ (Spotted whole) args ess) (h : Entered whole d d' ess.flatten)
    {q : Performance} (hq : q ∈ performances whole) (hqargs : q.args = args) :
    Entered whole d d' (q.directive.printed.flatMap fun i => ess[i]?.getD []) := by
  refine h.sublist ?_ fun e he => ?_
  · exact flatMap_getElem?_sublist (Directive.pairwise_printed _) (n := 0) fun _ _ => Nat.zero_le _
  · obtain ⟨i, arg, harg, hmem, spots, hlaid, hes⟩ := exists_arg_of_mem hargs he
    by_cases hi : i ∈ q.directive.printed
    · exact .inl (List.mem_flatMap.2 ⟨i, hi, hmem⟩)
    · rw [← hes] at hmem
      obtain ⟨a, ha, rfl⟩ := List.mem_map.1 hmem
      obtain ⟨p, hp, hlabels, htrims⟩ := hlaid.shows a ha
      refine .inr ⟨p, hp, hlabels, q, hq, i, arg, a.piece arg, hqargs ▸ harg, hi, ?_, htrims⟩
      exact (List.drop_suffix _ _).isInfix.trans (List.take_prefix _ _).isInfix

end Entered

/-- A text that was written between two drafts has spots for the entries that were added there and are
not lost. -/
def Placed (whole : List Exchange) (d d' : Draft) (text : Bytes) : Prop :=
  ∃ es, Spotted whole text es ∧ Entered whole d d' es

/-- What was placed depends on the entries alone. -/
theorem Placed.congr {whole : List Exchange} {d₁ d₂ d d' : Draft} {text : Bytes}
    (h : Placed whole d₁ d₂ text) (hentries : d₁.registry.entries = d.registry.entries)
    (hentries' : d₂.registry.entries = d'.registry.entries) : Placed whole d d' text := by
  obtain ⟨es, hspotted, hentered⟩ := h
  rw [Entered, hentries, hentries'] at hentered
  exact ⟨es, hspotted, hentered⟩

theorem placed_bare {whole : List Exchange} {d d' : Draft}
    (h : d'.registry.entries = d.registry.entries) (text : Bytes) : Placed whole d d' text :=
  ⟨[], .bare whole text, .of_entries_eq h⟩

theorem rows_placed {whole : List Exchange} {d d' : Draft} {args : List Bytes}
    (h : Conduct.Rows (Placed whole) d d' args) :
    ∃ ess, List.Forall₂ (Spotted whole) args ess ∧ Entered whole d d' ess.flatten := by
  induction h with
  | nil _ => exact ⟨[], .nil, .of_entries_eq rfl⟩
  | cons hfirst _ ih =>
    obtain ⟨es, hspotted, hentered⟩ := hfirst
    obtain ⟨ess, hothers, hrest⟩ := ih
    exact ⟨es :: ess, .cons hspotted hothers, hentered.append hrest⟩

/-! ## Directives -/

/-- The conduct of steps of a pass whose whole conversation is given: directives enroll themselves. -/
def enrolling (whole : List Exchange) : Conduct where
  given e := e ∈ whole
  ok := Enrolled
  fail _ _ _ := True
  refl _ := enrolled_of_idle idle_nil rfl rfl
  trans := Enrolled.trans
  fail_trans _ _ := trivial

section Perform

variable {s : Setting} {path : Bytes} {input : Bytes → Pass Bytes} {whole : List Exchange}
  {args : List Bytes} {ess : List (List Label.Entry)} {d d' : Draft} {line : Nat} {output : Bytes}
  {first : List Exchange}

/-- A directive that is no inclusion prints the spots of its arguments, and its own around them. -/
theorem spotted_effect {directive : Directive} (hdirective : directive ≠ .input)
    (hargs : List.Forall₂ (Spotted whole) args ess)
    (hnoted : { path, line, directive, args, output } ∈ performances whole)
    (hrun : (effect s path input directive args line).Runs d first (.ok (output, d'))) :
    Enrolled d (first ++ closing { path, line, directive, args, output }) d' ∧
      ∃ es, Entered whole d d' es ∧
        Spotted whole output ((directive.printed.flatMap fun i => ess[i]?.getD []) ++ es) := by
  obtain ⟨hnone, henrolled, hcomposed⟩ := enrolled_effect hdirective hrun
  have hpieces : List.Forall₂ (Spotted whole) (directive.printed.map fun i => args[i]?.getD [])
      (directive.printed.map fun i => ess[i]?.getD []) := by
    rw [List.forall₂_map_left_iff, List.forall₂_map_right_iff]
    exact List.forall₂_same.2 fun i _ => rel_arg (.bare whole []) hargs i
  have hspotted := Spotted.composed hcomposed hpieces
  rw [← List.flatMap_def] at hspotted
  obtain ⟨es, hes, hlabels⟩ := henrolled.entries
  refine ⟨henrolled, es, ⟨es, hes, .refl _, fun e he => .inl he⟩, ?_⟩
  rw [labelled, performances_append, hnone, List.nil_append] at hlabels
  cases hlabel : Performance.label? { path, line, directive, args, output } with
  | none =>
    have hes := (labelled_closing_none hlabel).symm
    rw [labelled] at hes
    rw [← hes] at hlabels
    cases hlabels
    rwa [List.append_nil]
  | some label =>
    have hes := (labelled_closing_some hlabel).symm
    rw [labelled] at hes
    rw [← hes] at hlabels
    cases hlabels with
    | cons hown hrest =>
      cases hrest
      exact hspotted.own hnoted hown

theorem holds_perform_placed
    (hinput : ∀ name d, (enrolling whole).Holds d (input name) fun output d' =>
      Placed whole d d' output)
    {d₀ : Draft} (directive : Directive) (line : Nat) (hrows : Conduct.Rows (Placed whole) d₀ d args) :
    (enrolling whole).Holds d (perform s path input directive args line) fun output d' =>
      Placed whole d₀ d' output := by
  intro trace r hrun hgiven
  rcases r with fault | ⟨output, d'⟩
  · trivial
  · obtain ⟨first, rfl, heffect⟩ := runs_perform hrun
    obtain ⟨ess, hargs, hentered⟩ := rows_placed hrows
    have hnoted : { path, line, directive, args, output } ∈ performances whole := by
      have hlast := hgiven ⟨.note (.performed path line directive args output), ()⟩
        (List.mem_cons_of_mem _ (List.mem_append_right _ (by simp [closing])))
      exact List.mem_filterMap.2 ⟨_, hlast, rfl⟩
    have hprinted := hentered.printed hargs hnoted rfl
    have hopening : Enrolled d [opening { path, line, directive, args, output }] d :=
      enrolled_of_idle ⟨rfl, fun _ => rfl⟩ rfl rfl
    by_cases hdirective : directive = .input
    · subst hdirective
      obtain ⟨henrolled, es, hspotted, hmade⟩ := hinput _ d first _ heffect fun e he =>
        hgiven e (List.mem_cons_of_mem _ (List.mem_append_left _ he))
      refine ⟨hopening.trans (henrolled.trans (enrolled_closing rfl (by simp) d')), es, hspotted, ?_⟩
      exact hprinted.append hmade
    · obtain ⟨henrolled, es, hmade, hspotted⟩ := spotted_effect hdirective hargs hnoted heffect
      exact ⟨hopening.trans henrolled, _, hspotted, hprinted.append hmade⟩

end Perform

/-! ## Documents -/

section Documents

variable {s : Setting} {chain : List Bytes} {path : Bytes} {whole : List Exchange}

theorem enrolling_of_idling {α : Type} {x : Pass α} (h : idling.Always x) (d : Draft) :
    (enrolling whole).Holds d x fun _ d' => d'.registry = d.registry := by
  intro trace r hrun _
  have hmet := h d trace r hrun fun _ _ => trivial
  rcases r with fault | ⟨a, d'⟩
  · trivial
  · obtain ⟨⟨hidle, hpending, hregistry⟩, -⟩ := hmet
    exact ⟨enrolled_of_idle hidle hpending hregistry, hregistry⟩

theorem texts_placed {input : Bytes → Pass Bytes}
    (hinput : ∀ name d, (enrolling whole).Holds d (input name) fun output d' =>
      Placed whole d d' output) :
    (enrolling whole).Texts (Placed whole) (fun _ => True) (perform s path input) where
  nil _ := placed_bare rfl []
  append := by
    rintro d d' out more ⟨es, hspotted, hentered⟩ -
    exact ⟨es, hspotted.append_text more, hentered⟩
  place := by
    rintro d d' d'' out isBlock output after ⟨es, hout, hentered⟩ ⟨es', houtput, hentered'⟩
    exact ⟨es ++ es', hout.place houtput isBlock after, hentered.append hentered'⟩
  perform d d' directive args line hrows := holds_perform_placed hinput directive line hrows
  malformed _ _ := trivial

/-- An inclusion is placed if the document is that it includes. -/
theorem holds_inclusion_placed {expandChild : Bytes → Pass (Node × Bytes)}
    (hchild : ∀ child, s.Includes path child → ∀ d,
      (enrolling whole).Holds d (expandChild child) fun result d' => Placed whole d d' result.2)
    (name : Bytes) (d : Draft) :
    (enrolling whole).Holds d (inclusionWith s chain path expandChild name) fun output d' =>
      Placed whole d d' output := by
  have hnote : ∀ child, idling.Always (Pass.note (.included chain child)) := fun child =>
    Conduct.always_ask fun _ _ _ => ⟨⟨rfl, fun _ => rfl⟩, rfl, rfl⟩
  refine Conduct.holds_require_mapError_bind (fun _ => trivial) fun child hresolved => ?_
  refine (enrolling_of_idling (hnote child) d).bind fun _ d₂ _ _ h₂ => ?_
  refine (hchild child ⟨name, hresolved⟩ d₂).bind fun result d₃ _ _ hresult => ?_
  obtain ⟨node, text⟩ := result
  have hgather : idling.Always
      (modify fun d => { d with children := d.children ++ [node] } : Pass PUnit) :=
    idling_modify fun _ => ⟨rfl, rfl⟩
  refine (enrolling_of_idling hgather d₃).bind fun _ d₄ _ _ h₄ => ?_
  exact Conduct.holds_pure (hresult.congr (by rw [h₂]) (by rw [h₄]))

/-- A document that was read is placed if the documents are that it includes. -/
theorem holds_document_placed {text : Bytes} {depth : Nat}
    (hchild : ∀ child, s.Includes path child → ∀ d,
      (enrolling whole).Holds d (expandFile s (chain ++ [path]) child (depth + 1))
        fun result d' => Placed whole d d' result.2)
    (d : Draft) :
    (enrolling whole).Holds d
      (documentWith s chain path depth text (expandText s (chain ++ [path]) path depth 0 text))
      fun result d' => Placed whole d d' result.2 := by
  have hnote : ∀ event, (∀ path line directive args output,
      event ≠ .performed path line directive args output) →
      idling.Always (Pass.note event) := by
    intro event hevent
    refine Conduct.always_ask fun _ _ _ => ⟨⟨?_, fun _ => rfl⟩, rfl, rfl⟩
    cases event with
    | performed path line directive args output => exact absurd rfl (hevent _ _ _ _ _)
    | _ => rfl
  have hmodify : ∀ children : List Node,
      idling.Always (modify fun d => { d with children } : Pass PUnit) := fun _ =>
    idling_modify fun _ => ⟨rfl, rfl⟩
  have htexts : (enrolling whole).Texts (Placed whole) (fun _ => True) (perform s path
      (inclusionWith s (chain ++ [path]) path (expandFile s (chain ++ [path]) · (depth + 1)))) :=
    texts_placed (holds_inclusion_placed hchild)
  refine (enrolling_of_idling (hnote _ (by simp)) d).bind fun _ d₁ _ _ h₁ => ?_
  refine (enrolling_of_idling (idling_declareMetadata s path text) d₁).bind fun _ d₂ _ _ h₂ => ?_
  refine (enrolling_of_idling Conduct.always_get d₂).bind fun outer d₃ _ _ h₃ => ?_
  refine (enrolling_of_idling (hmodify []) d₃).bind fun _ d₄ _ _ h₄ => ?_
  refine Conduct.Holds.bind (htexts.expand (.ofText text)
    (Template.all_of_forall (fun _ => trivial) _) 0 [] d₄ d₄ (placed_bare rfl []))
    fun out d₅ _ _ hout => ?_
  refine (enrolling_of_idling Conduct.always_get d₅).bind fun inner d₆ _ _ h₆ => ?_
  refine (enrolling_of_idling (hmodify _) d₆).bind fun _ d₇ _ _ h₇ => ?_
  refine (enrolling_of_idling (hnote _ (by simp)) d₇).bind fun _ d₈ _ _ h₈ => ?_
  exact Conduct.holds_pure (hout.congr (by rw [h₄, h₃, h₂, h₁]) (by rw [h₈, h₇, h₆]))

/-- **Documents** enroll their directives and place their outputs, whatever the texts are. -/
theorem holds_expandFile_placed (chain : List Bytes) (path : Bytes) (depth : Nat) (d : Draft) :
    (enrolling whole).Holds d (expandFile s chain path depth) fun result d' =>
      Placed whole d d' result.2 := by
  refine expandFile_induction (motive := fun _ _ _ x => ∀ d, (enrolling whole).Holds d x fun result d' =>
    Placed whole d d' result.2) ?_ ?_ ?_ ?_ chain path depth d
  · exact fun _ _ _ _ _ => Conduct.holds_throw trivial
  · exact fun _ _ _ _ _ => Conduct.holds_throw trivial
  · exact fun _ _ _ _ _ _ => Conduct.holds_throw trivial
  · exact fun _ _ _ _ _ hchild d => holds_document_placed hchild d

end Documents

/-! ## Passes -/

/-- A conversation in which a pass expands its root document. `raw` is the text with marks, and `draft`
what was gathered. -/
def Drafts (s : Setting) (root : Bytes) (trace : List Exchange) (raw : Bytes) (draft : Draft) : Prop :=
  ∃ node first event,
    (expandFile s [] root 0).Runs { registry := { lang := s.lang.id } } first
      (.ok ((node, raw), draft)) ∧ trace = first ++ [⟨.count event, ()⟩]

/-- A pass that succeeds has expanded its root document, and then replaced marks and numbered labels in
the text. -/
theorem exists_drafts {s : Setting} {root : Bytes} {trace : List Exchange} {expanded : Expanded}
    (h : (expand s root).Runs trace (.ok expanded)) :
    ∃ raw draft, Drafts s root trace raw draft ∧ LinksMarks draft raw expanded.text ∧
      expanded.labels = (draft.registry.scanNative expanded.text).2 := by
  obtain ⟨first, r, event, hruns, rfl, hresult⟩ := runs_expand h
  rcases r with fault | ⟨⟨node, raw⟩, draft⟩
  · cases hresult
  · exact ⟨raw, draft, ⟨node, first, event, hruns, rfl⟩, linked_of_finish hresult.symm⟩

section Drafts

variable {s : Setting} {root : Bytes} {trace : List Exchange} {raw : Bytes} {draft : Draft}

/-- What a pass has gathered was enrolled by its directives, and their outputs stand in its text. -/
theorem Drafts.enrolled (h : Drafts s root trace raw draft) :
    Enrolled { registry := { lang := s.lang.id } } trace draft ∧
      Placed trace { registry := { lang := s.lang.id } } draft raw := by
  obtain ⟨node, first, event, hruns, rfl⟩ := h
  have hgiven : ∀ e ∈ first, (enrolling (first ++ [⟨.count event, ()⟩])).given e :=
    fun e he => List.mem_append_left _ he
  obtain ⟨henrolled, hplaced⟩ := holds_expandFile_placed [] root 0 _ first _ hruns hgiven
  have hcounted : Enrolled draft [⟨.count event, ()⟩] draft :=
    enrolled_of_idle ⟨rfl, fun _ => rfl⟩ rfl rfl
  exact ⟨henrolled.trans hcounted, hplaced⟩

/-- The registry holds the definitions that the conversation tells of, and the references are pending. -/
theorem Drafts.complete (h : Drafts s root trace raw draft) : Complete trace draft := by
  obtain ⟨⟨hrecorded, -, -, -, -⟩, -⟩ := h.enrolled
  obtain ⟨entries, hentries, hdefines⟩ := hrecorded.definitions
  refine ⟨hrecorded.pending, ?_, hrecorded.sound (Label.Registry.sound_empty _)⟩
  rw [hentries]
  exact hdefines

end Drafts

end Bindery.Expansion
