import Bindery.Proofs.Listing.Piece

/-!
# Texts with other white space

`Respaced` relates the pieces of a source to a text that has all of them but the comments, byte for byte
and in order, with white space added or left out between them. What stands before a block comment has to
stay apart from what stands behind it: an `Edge` says whether the text owes white space.

Such a text is the kept pieces up to white space (`Respaced.unspaced_eq`), has the literals in it
(`Respaced.inOrder`), and keeps apart what block comments separated (`Respaced.keepsApart`).
-/

namespace Bindery.Listing

open Text

/-! ## Texts of pieces -/

section

variable {p : Piece} {ps qs : List Piece}

@[simp] theorem joined_nil : joined [] = [] := rfl

@[simp] theorem joined_cons : joined (p :: ps) = p.text ++ joined ps := List.flatMap_cons

@[simp] theorem joined_append : joined (ps ++ qs) = joined ps ++ joined qs := List.flatMap_append

@[simp] theorem joined_map_byte (w : Bytes) : joined (w.map .byte) = w := by
  induction w with
  | nil => rfl
  | cons c w ih => rw [List.map_cons, joined_cons, ih, Piece.text, List.singleton_append]

@[simp] theorem kept_nil : kept [] = [] := rfl

theorem kept_cons (h : p.isComment = false) : kept (p :: ps) = p.text ++ kept ps := by
  rw [kept, List.filter_cons_of_pos (by simp [h]), joined_cons, kept]

theorem kept_cons_comment (h : p.isComment = true) : kept (p :: ps) = kept ps := by
  rw [kept, List.filter_cons_of_neg (by simp [h]), kept]

@[simp] theorem kept_append : kept (ps ++ qs) = kept ps ++ kept qs := by
  rw [kept, List.filter_append, joined_append, kept, kept]

@[simp] theorem literals_append : literals (ps ++ qs) = literals ps ++ literals qs :=
  List.filterMap_append

/-- The end of a line and single bytes: what white space is made of. -/
def Piece.isPlain : Piece → Bool
  | .newline => true
  | .byte _ => true
  | _ => false

theorem Piece.isComment_of_isPlain (h : p.isPlain = true) : p.isComment = false := by
  cases p <;> simp_all [isPlain, isComment]

theorem Piece.text_ne_nil (h : p.isPlain = true) : p.text ≠ [] := by
  cases p <;> simp_all [isPlain, text]

theorem kept_of_isPlain (h : ∀ p ∈ ps, p.isPlain = true) : kept ps = joined ps := by
  have hfilter : ps.filter (!·.isComment) = ps := by
    apply List.filter_eq_self.2
    intro p hp
    rw [Piece.isComment_of_isPlain (h p hp)]
    rfl
  rw [kept, hfilter]

theorem literals_of_isPlain (h : ∀ p ∈ ps, p.isPlain = true) : literals ps = [] := by
  apply List.filterMap_eq_nil_iff.2
  intro p hp
  have hplain := h p hp
  cases p <;> simp_all [Piece.isPlain]

end

/-! ## Edges -/

/-- What is known about the end of the present line. -/
inductive Edge where
  /-- The line is empty or ends in a separator. -/
  | free
  /-- The line ends in something else. -/
  | inked
  /-- A comment was left out behind something else, and no separator stands there yet. -/
  | owing
  deriving DecidableEq

/-- The edge of a line that was written. -/
def edgeOf (line : Bytes) : Edge :=
  match line.getLast? with
  | none => .free
  | some c => if isSeparator c then .free else .inked

def Edge.afterComment : Edge → Edge
  | .free => .free
  | .inked => .owing
  | .owing => .owing

theorem edgeOf_append {line text : Bytes} (h : text ≠ []) : edgeOf (line ++ text) = edgeOf text := by
  obtain ⟨init, c, rfl⟩ := (List.eq_nil_or_concat text).resolve_left h
  rw [List.concat_eq_append, ← List.append_assoc, edgeOf, edgeOf, List.getLast?_concat,
    List.getLast?_concat]

theorem edgeOf_ne_owing (line : Bytes) : edgeOf line ≠ .owing := by
  rw [edgeOf]
  split
  · simp
  · split <;> simp

theorem getLast?_of_edgeOf {line : Bytes} (h : edgeOf line = .inked) :
    ∃ a, line.getLast? = some a ∧ isSeparator a = false := by
  rw [edgeOf] at h
  split at h
  · cases h
  · next a hlast =>
    refine ⟨a, hlast, ?_⟩
    by_cases ha : isSeparator a = true
    · rw [if_pos ha] at h
      cases h
    · simpa using ha

theorem isSpace_of_isSeparator {c : UInt8} (h : isSeparator c = true) : IsSpace [c] := by
  refine .inl ⟨c, rfl, ?_⟩
  rw [isSeparator, isBlank, Bool.or_eq_true, Bool.or_eq_true, beq_iff_eq, beq_iff_eq, beq_iff_eq] at h
  rcases h with (rfl | rfl) | rfl <;> decide

theorem edgeOf_eq_inked {text : Bytes} (hne : text ≠ []) (h : ∀ c, IsSpace c → ¬ c <:+ text) :
    edgeOf text = .inked := by
  obtain ⟨init, c, rfl⟩ := (List.eq_nil_or_concat text).resolve_left hne
  rw [List.concat_eq_append] at h ⊢
  rw [edgeOf, List.getLast?_concat]
  apply if_neg
  intro hc
  exact h [c] (isSpace_of_isSeparator hc) (List.suffix_append _ _)

/-- A text has the kept pieces in order, up to white space. -/
inductive Respaced : Edge → List Piece → Bytes → Prop
  | nil (e : Edge) : Respaced e [] []
  | keep {e : Edge} {p : Piece} {ps : List Piece} {t : Bytes} (hkept : p.isComment = false)
      (hne : p.text ≠ []) (howing : e = .owing → ∀ c ∈ p.text.head?, isSeparator c = true)
      (h : Respaced (edgeOf p.text) ps t) : Respaced e (p :: ps) (p.text ++ t)
  | space (e : Edge) {w : Bytes} {ps : List Piece} {t : Bytes} (hwhite : White w) (hne : w ≠ [])
      (hfresh : Fresh (kept ps)) (h : Respaced .free ps t) : Respaced e ps (w ++ t)
  | drop (e : Edge) {qs ps : List Piece} {t : Bytes} (hplain : ∀ q ∈ qs, q.isPlain = true)
      (hne : qs ≠ []) (hwhite : White (joined qs)) (hfresh : Fresh (kept ps))
      (h : Respaced .free ps t) : Respaced e (qs ++ ps) t
  | block {e : Edge} {text : Bytes} {ps : List Piece} {t : Bytes} (h : Respaced e.afterComment ps t) :
      Respaced e (.blockComment (47 :: text) :: ps) t
  | line (e : Edge) {e' : Edge} {text : Bytes} {ps : List Piece} {t : Bytes} (h : Respaced e' ps t) :
      Respaced e (.lineComment (47 :: text) :: ps) t

/-- Where only block comments stand between two pieces with no white space beside the comments, the text
has white space: what stood before them, up to `p`, is in front of it, and what follows, from `q` on,
behind it. -/
def KeepsApart (ps : List Piece) (t : Bytes) : Prop :=
  ∀ (front comments back : List Piece) (p q : Piece), ps = front ++ p :: (comments ++ q :: back) →
    comments ≠ [] → (∀ c ∈ comments, ∃ text, c = .blockComment text) →
    p.isComment = false → q.isComment = false →
    (∀ c, IsSpace c → ¬ c <:+ joined (front ++ [p])) → (∀ c, IsSpace c → ¬ c <+: joined (q :: back)) →
    ∃ x w y, t = x ++ (w ++ y) ∧ White w ∧ w ≠ [] ∧ p.text <:+ x ∧ q.text <+: y ∧
      unspaced x = unspaced (kept (front ++ [p])) ∧ unspaced y = unspaced (kept (q :: back))

/-- A text has white space between an end `p` and a start `q`: in front of it stands what is kept of `front`,
also behind any other text, and behind it what is kept of `back`, up to white space. -/
def OpensBetween (front back : List Piece) (p q t : Bytes) : Prop :=
  ∃ x w y, t = x ++ (w ++ y) ∧ White w ∧ w ≠ [] ∧ p <:+ x ∧ q <+: y ∧
    (∀ u, unspaced (u ++ x) = unspaced (u ++ kept front)) ∧ unspaced y = unspaced (kept back)

namespace OpensBetween

variable {front back : List Piece} {p q t : Bytes}

theorem cons (h : OpensBetween front back p q t) {piece : Piece} (hkept : piece.isComment = false) :
    OpensBetween (piece :: front) back p q (piece.text ++ t) := by
  obtain ⟨x, w, y, rfl, hw, hspace, hsuffix, hleads, hfront, hback⟩ := h
  refine ⟨piece.text ++ x, w, y, (List.append_assoc _ _ _).symm, hw, hspace,
    hsuffix.trans (List.suffix_append _ _), hleads, ?_, hback⟩
  intro u
  rw [kept_cons hkept, ← List.append_assoc, ← List.append_assoc]
  exact hfront (u ++ piece.text)

theorem cons_comment (h : OpensBetween front back p q t) {piece : Piece} (hcomment : piece.isComment = true) :
    OpensBetween (piece :: front) back p q t := by
  rwa [OpensBetween, kept_cons_comment hcomment]

theorem space (h : OpensBetween front back p q t) {v : Bytes} (hv : White v) (ht : Fresh t)
    (hfresh : Fresh (kept front)) : OpensBetween front back p q (v ++ t) := by
  obtain ⟨x, w, y, rfl, hw, hspace, hsuffix, hleads, hfront, hback⟩ := h
  refine ⟨v ++ x, w, y, (List.append_assoc _ _ _).symm, hw, hspace,
    hsuffix.trans (List.suffix_append _ _), hleads, ?_, hback⟩
  intro u
  rw [unspaced_append_white u hv ht.of_append, Text.unspaced_append u hfresh]
  exact congrArg (unspaced u ++ ·) (hfront [])

theorem drop (h : OpensBetween front back p q t) {qs : List Piece} (hplain : ∀ q ∈ qs, q.isPlain = true)
    (hwhite : White (joined qs)) (ht : Fresh t) (hfresh : Fresh (kept front)) :
    OpensBetween (qs ++ front) back p q t := by
  obtain ⟨x, w, y, rfl, hw, hspace, hsuffix, hleads, hfront, hback⟩ := h
  refine ⟨x, w, y, rfl, hw, hspace, hsuffix, hleads, ?_, hback⟩
  intro u
  rw [kept_append, kept_of_isPlain hplain, unspaced_append_white u hwhite hfresh,
    Text.unspaced_append u ht.of_append]
  exact congrArg (unspaced u ++ ·) (hfront [])

end OpensBetween

/-- White space at the start of pieces stands in front of a piece `p` that ends in none and has a comment
behind it. -/
theorem exists_front_of_white {qs ps front comments back : List Piece} {p q : Piece}
    (hps : qs ++ ps = front ++ p :: (comments ++ q :: back)) (hplain : ∀ q ∈ qs, q.isPlain = true)
    (hwhite : White (joined qs)) (hne : comments ≠ [])
    (hcomments : ∀ c ∈ comments, ∃ text, c = .blockComment text)
    (hend : ∀ c, IsSpace c → ¬ c <:+ joined (front ++ [p])) :
    ∃ rest, front = qs ++ rest ∧ ps = rest ++ p :: (comments ++ q :: back) := by
  rcases List.append_eq_append_iff.1 hps with ⟨rest, hfront, hrest⟩ | ⟨rest, hqs, hrest⟩
  · exact ⟨rest, hfront, hrest⟩
  rcases rest with - | ⟨p', rest⟩
  · exact ⟨[], by simpa using hqs.symm, hrest.symm⟩
  obtain ⟨rfl, htail⟩ := List.cons.inj hrest
  rcases rest with - | ⟨c, rest⟩
  · have hlast : joined (front ++ [p]) ≠ [] := by
      rw [joined_append, joined_cons]
      have hplain := hplain p (by rw [hqs]; simp)
      exact List.append_ne_nil_of_right_ne_nil _
        (List.append_ne_nil_of_left_ne_nil (Piece.text_ne_nil hplain) _)
    rw [hqs] at hwhite
    obtain ⟨c, hc, hsuffix⟩ := hwhite.exists_suffix hlast
    exact absurd hsuffix (hend c hc)
  · obtain ⟨d, comments, rfl⟩ := List.exists_cons_of_ne_nil hne
    obtain ⟨rfl, -⟩ := List.cons.inj htail
    obtain ⟨text, rfl⟩ := hcomments d List.mem_cons_self
    cases hplain (.blockComment text) (by rw [hqs]; simp)

namespace Respaced

variable {e : Edge} {ps : List Piece} {t : Bytes}

/-- White space is no longer owed where the pieces bring it. -/
theorem owing (h : Respaced .inked ps t) (hhead : ∀ c ∈ (joined ps).head?, isSeparator c = true) :
    Respaced .owing ps t := by
  generalize he : Edge.inked = e at h
  cases h with
  | nil => exact .nil _
  | keep hkept hne _ h =>
    refine .keep hkept hne (fun _ c hc => hhead c ?_) h
    rw [joined_cons, List.head?_append, hc]
    rfl
  | space _ hwhite hne hfresh h => exact .space _ hwhite hne hfresh h
  | drop _ hplain hne hwhite hfresh h => exact .drop _ hplain hne hwhite hfresh h
  | block => exact absurd (hhead 47 rfl) (by decide)
  | line => exact absurd (hhead 47 rfl) (by decide)

theorem drop_free (h : Respaced .free ps t) {qs : List Piece} (hplain : ∀ q ∈ qs, q.isPlain = true)
    (hwhite : White (joined qs)) (hfresh : Fresh (kept ps)) : Respaced .free (qs ++ ps) t := by
  by_cases hne : qs = []
  · rwa [hne]
  · exact .drop _ hplain hne hwhite hfresh h

theorem fresh (h : Respaced e ps t) (hfresh : Fresh (kept ps)) : Fresh t := by
  induction h with
  | nil => exact fresh_nil
  | keep hkept hne =>
    rw [kept_cons hkept] at hfresh
    exact hfresh.of_append.append hne
  | space _ hwhite hne => exact hwhite.fresh.append hne
  | drop _ _ _ _ hps _ ih => exact ih hps
  | block _ ih => exact ih (by rwa [kept_cons_comment rfl] at hfresh)
  | line _ _ ih => exact ih (by rwa [kept_cons_comment rfl] at hfresh)

/-- The text is the kept pieces up to white space, also behind any other text. -/
theorem unspaced_append (h : Respaced e ps t) (u : Bytes) :
    unspaced (u ++ t) = unspaced (u ++ kept ps) := by
  induction h generalizing u with
  | nil => rfl
  | @keep e p ps t hkept _ _ _ ih =>
    rw [kept_cons hkept, ← List.append_assoc, ← List.append_assoc]
    exact ih (u ++ p.text)
  | @space e w ps t hwhite hne hfresh h ih =>
    rw [unspaced_append_white u hwhite (h.fresh hfresh), Text.unspaced_append u hfresh]
    exact congrArg (unspaced u ++ ·) (ih [])
  | @drop e qs ps t hplain hne hwhite hfresh h ih =>
    rw [kept_append, kept_of_isPlain hplain, unspaced_append_white u hwhite hfresh,
      Text.unspaced_append u (h.fresh hfresh)]
    exact congrArg (unspaced u ++ ·) (ih [])
  | block _ ih =>
    rw [kept_cons_comment rfl]
    exact ih u
  | line _ _ ih =>
    rw [kept_cons_comment rfl]
    exact ih u

theorem unspaced_eq (h : Respaced e ps t) : unspaced t = unspaced (kept ps) := h.unspaced_append []

/-- The literals stand in the text byte for byte. -/
theorem inOrder (h : Respaced e ps t) : InOrder (literals ps) t := by
  induction h with
  | nil => exact .nil _
  | @keep e p ps t hkept _ _ _ ih =>
    cases p with
    | literal text => exact .cons [] text ih
    | newline => exact ih.append_left [10]
    | byte c => exact ih.append_left [c]
    | lineComment => cases hkept
    | blockComment => cases hkept
  | space _ _ _ _ _ ih => exact ih.append_left _
  | drop _ hplain _ _ _ _ ih =>
    rw [literals_append, literals_of_isPlain hplain]
    exact ih
  | block _ ih => exact ih
  | line _ _ ih => exact ih

/-- Behind block comments stands white space as far as it is owed, and then what the source goes on with. -/
theorem behind_comments (h : Respaced e ps t) {comments back : List Piece} {q : Piece}
    (hps : ps = comments ++ q :: back)
    (hcomments : ∀ c ∈ comments, ∃ text, c = .blockComment text) (hq : q.isComment = false)
    (hstart : ∀ c, IsSpace c → ¬ c <+: joined (q :: back)) :
    ∃ w y, t = w ++ y ∧ White w ∧ q.text <+: y ∧ unspaced y = unspaced (kept (q :: back)) ∧
      (e = .owing ∨ e = .inked ∧ comments ≠ [] → w ≠ []) := by
  induction h generalizing comments with
  | nil => simp at hps
  | @keep e p ps t hkept hne howing h _ =>
    rcases comments with - | ⟨c, comments⟩
    · obtain ⟨rfl, rfl⟩ := List.cons.inj hps
      refine ⟨[], p.text ++ t, rfl, .nil, List.prefix_append _ _, ?_, ?_⟩
      · rw [kept_cons hkept]
        exact h.unspaced_append p.text
      · rintro (he | ⟨-, hnil⟩)
        · obtain ⟨c, r, hc⟩ := List.exists_cons_of_ne_nil hne
          have hseparator := howing he c (by rw [hc]; rfl)
          refine absurd ?_ (hstart [c] (isSpace_of_isSeparator hseparator))
          rw [joined_cons, hc]
          simp
        · exact absurd rfl hnil
    · obtain ⟨rfl, -⟩ := List.cons.inj hps
      obtain ⟨text, rfl⟩ := hcomments p List.mem_cons_self
      cases hkept
  | @space e w ps t hwhite hne hfresh _ ih =>
    obtain ⟨v, y, rfl, hv, hleads, hunspaced, -⟩ := ih hps hcomments
    exact ⟨w ++ v, y, (List.append_assoc _ _ _).symm, hwhite.append hv, hleads, hunspaced,
      fun _ => List.append_ne_nil_of_left_ne_nil hne v⟩
  | @drop e qs ps t hplain hne hwhite hfresh _ _ =>
    obtain ⟨p, qs, rfl⟩ := List.exists_cons_of_ne_nil hne
    rcases comments with - | ⟨c, comments⟩
    · obtain ⟨rfl, rfl⟩ : p = q ∧ qs ++ ps = back := List.cons.inj hps
      rw [joined_cons] at hwhite
      have hne := Piece.text_ne_nil (hplain p List.mem_cons_self)
      obtain ⟨c, hc, hleads⟩ := hwhite.exists_prefix (List.append_ne_nil_of_left_ne_nil hne _)
      refine absurd ?_ (hstart c hc)
      rw [joined_cons, joined_append, ← List.append_assoc]
      exact hleads.trans (List.prefix_append _ _)
    · obtain ⟨rfl, -⟩ := List.cons.inj hps
      obtain ⟨text, rfl⟩ := hcomments p List.mem_cons_self
      cases hplain _ List.mem_cons_self
  | @block e text ps t h ih =>
    rcases comments with - | ⟨c, comments⟩
    · obtain ⟨rfl, -⟩ := List.cons.inj hps
      cases hq
    · obtain ⟨rfl, htail⟩ := List.cons.inj hps
      obtain ⟨w, y, rfl, hw, hleads, hunspaced, hne⟩ :=
        ih htail fun c hc => hcomments c (List.mem_cons_of_mem _ hc)
      refine ⟨w, y, rfl, hw, hleads, hunspaced, ?_⟩
      rintro (rfl | ⟨rfl, -⟩)
      · exact hne (.inl rfl)
      · exact hne (.inl rfl)
  | line =>
    rcases comments with - | ⟨c, comments⟩
    · obtain ⟨rfl, -⟩ := List.cons.inj hps
      cases hq
    · obtain ⟨rfl, -⟩ := List.cons.inj hps
      obtain ⟨text, htext⟩ := hcomments _ List.mem_cons_self
      cases htext

theorem exists_apart (h : Respaced e ps t) {front comments back : List Piece} {p q : Piece}
    (hps : ps = front ++ p :: (comments ++ q :: back)) (hne : comments ≠ [])
    (hcomments : ∀ c ∈ comments, ∃ text, c = .blockComment text)
    (hp : p.isComment = false) (hq : q.isComment = false)
    (hend : ∀ c, IsSpace c → ¬ c <:+ joined (front ++ [p]))
    (hstart : ∀ c, IsSpace c → ¬ c <+: joined (q :: back)) :
    OpensBetween (front ++ [p]) (q :: back) p.text q.text t := by
  induction h generalizing front with
  | nil => simp at hps
  | @keep e p' ps t hkept hne' howing h ih =>
    rcases front with - | ⟨p'', front⟩
    · obtain ⟨rfl, rfl⟩ := List.cons.inj hps
      have hedge : edgeOf p'.text = .inked := by
        apply edgeOf_eq_inked hne'
        simpa using hend
      obtain ⟨w, y, rfl, hw, hleads, hunspaced, hspace⟩ :=
        h.behind_comments rfl hcomments hq hstart
      refine ⟨p'.text, w, y, rfl, hw, hspace (.inr ⟨hedge, hne⟩), List.suffix_rfl, hleads, ?_, hunspaced⟩
      intro u
      rw [List.nil_append, kept_cons hp, kept_nil, List.append_nil]
    · obtain ⟨rfl, rfl⟩ := List.cons.inj hps
      exact (ih rfl fun c hc hs => hend c hc (hs.trans (List.suffix_append _ _))).cons hkept
  | @space e w ps t hwhite hne' hfresh h ih =>
    have ht := h.fresh hfresh
    rw [hps, List.append_cons, kept_append] at hfresh
    exact (ih hps hend).space hwhite ht hfresh.of_append
  | @drop e qs ps t hplain hne' hwhite hfresh h ih =>
    have ht := h.fresh hfresh
    obtain ⟨rest, rfl, rfl⟩ := exists_front_of_white hps hplain hwhite hne hcomments hend
    rw [List.append_cons, kept_append] at hfresh
    rw [List.append_assoc]
    refine (ih rfl fun c hc hs => hend c hc ?_).drop hplain hwhite ht hfresh.of_append
    rw [List.append_assoc, joined_append]
    exact hs.trans (List.suffix_append _ _)
  | block h ih =>
    rcases front with - | ⟨p', front⟩
    · obtain ⟨rfl, -⟩ := List.cons.inj hps
      cases hp
    · obtain ⟨rfl, rfl⟩ := List.cons.inj hps
      exact (ih rfl fun c hc hs => hend c hc (hs.trans (List.suffix_append _ _))).cons_comment rfl
  | line e h ih =>
    rcases front with - | ⟨p', front⟩
    · obtain ⟨rfl, -⟩ := List.cons.inj hps
      cases hp
    · obtain ⟨rfl, rfl⟩ := List.cons.inj hps
      exact (ih rfl fun c hc hs => hend c hc (hs.trans (List.suffix_append _ _))).cons_comment rfl

/-- What only block comments separated stays apart. -/
theorem keepsApart (h : Respaced e ps t) : KeepsApart ps t := by
  intro front comments back p q hps hne hcomments hp hq hend hstart
  obtain ⟨x, w, y, ht, hw, hspace, hsuffix, hleads, hfront, hback⟩ :=
    h.exists_apart hps hne hcomments hp hq hend hstart
  exact ⟨x, w, y, ht, hw, hspace, hsuffix, hleads, hfront [], hback⟩

end Respaced

end Bindery.Listing
