import Bindery.Proofs.Listing.Lexeme

/-!
# Where tokens and comments stand

The tokens of a source stand where their offsets say, one behind the other, and so do the comments between
them. The line of a comment starts behind the last end of a line in front of it, also when that is inside
of a string.
-/

namespace Bindery.Listing.Python

open Text

/-- A token is what stands at its place in a source. -/
def Token.Stands (source : Bytes) (t : Token) : Prop :=
  ∃ before following n, source = before ++ (t.text ++ following) ∧ t.start = before.length ∧
    t.stop = before.length + t.text.length ∧ Parted before (t.text ++ following) ∧
    Lexed (.token t.kind n) t.text following

/-- A comment stands at its place in a source, on the line that starts where it says. -/
def Comment.Stands (source : Bytes) (c : Comment) : Prop :=
  ∃ front line text following n, source = front ++ (line ++ (text ++ following)) ∧
    (∀ x ∈ front.getLast?, x = 10) ∧ 10 ∉ line ∧ c.lineStart = front.length ∧
    c.start = front.length + line.length ∧ c.stop = c.start + text.length ∧
    Lexed (.comment n) text following

/-- The tokens that were found so far. -/
def State.found (s : State) : List Token :=
  s.logicals.reverse.flatMap LogicalLine.tokens ++ s.tokens.reverse

/-- A place in a source with `rest` to go, and where its line starts. -/
def Place (source rest : Bytes) (lineStart offset : Nat) : Prop :=
  ∃ front line, source = front ++ (line ++ rest) ∧ (∀ x ∈ front.getLast?, x = 10) ∧ 10 ∉ line ∧
    lineStart = front.length ∧ offset = front.length + line.length ∧ Parted (front ++ line) rest

/-- A byte that can stand between tokens: white space, or the backslash that joins two lines. -/
def isSkipped (c : UInt8) : Bool := isNewline c || isBlank c || c == 13 || c == 92

/-- A byte of a source stands between tokens: it is white space, or a backslash at the end of its line. -/
def Separates (source : Bytes) (i : Nat) : Prop :=
  ∃ x, source[i]? = some x ∧ (x = 32 ∨ x = 9 ∨ x = 13 ∨ x = 10 ∨ x = 92 ∧ source[i + 1]? = some 10)

/-- Between two lexemes, with `rest` of a source to go, what was found stands where it says, and nothing
else was passed by but white space. -/
structure State.Reads (source rest : Bytes) (s : State) : Prop where
  place : Place source rest s.lineStart s.offset
  tokens : ∀ t ∈ s.found, t.Stands source ∧ t.stop ≤ s.offset
  ordered : s.found.Pairwise fun a b => a.stop ≤ b.start
  comments : ∀ c ∈ s.comments, c.Stands source ∧ c.stop ≤ s.offset
  apart : ∀ t ∈ s.found, ∀ c ∈ s.comments, t.stop ≤ c.start ∨ c.stop ≤ t.start
  whole : ∀ i < s.offset, Separates source i ∨
    (∃ t ∈ s.found, t.start ≤ i ∧ i < t.stop) ∨ ∃ c ∈ s.comments, c.start ≤ i ∧ i < c.stop

section

variable {source rest text following : Bytes} {s s' : State} {lineStart offset : Nat}

theorem Place.inline (h : Place source (text ++ following) lineStart offset) (hline : 10 ∉ text)
    (hne : text ≠ []) (hparted : Parted text following) :
    Place source following lineStart (offset + text.length) := by
  obtain ⟨front, line, rfl, hfront, hnewline, rfl, rfl, -⟩ := h
  refine ⟨front, line ++ text, by simp, hfront, by simp [hnewline, hline], rfl, ?_, ?_⟩
  · rw [List.length_append, Nat.add_assoc]
  · rw [← List.append_assoc]
    exact hparted.append_left hne _

theorem Place.break {body tail : Bytes} (h : Place source (text ++ following) lineStart offset)
    (htext : text = body ++ tail) (hbody : body ≠ []) (hlast : ∀ x ∈ body.getLast?, x = 10)
    (htail : 10 ∉ tail) (hparted : Parted text following) :
    Place source following (offset + body.length) (offset + text.length) := by
  obtain ⟨front, line, rfl, -, -, rfl, rfl, -⟩ := h
  subst htext
  refine ⟨front ++ line ++ body, tail, by simp, ?_, htail, ?_, ?_, ?_⟩
  · rw [List.getLast?_append_of_ne_nil _ hbody]
    exact hlast
  · rw [List.length_append, List.length_append]
  · simp only [List.length_append]
    omega
  · rw [List.append_assoc]
    exact hparted.append_left (List.append_ne_nil_of_left_ne_nil hbody _) _

theorem Place.getElem? (h : Place source rest lineStart offset) (n : Nat) : source[offset + n]? = rest[n]? := by
  obtain ⟨front, line, rfl, -, -, -, rfl, -⟩ := h
  rw [← List.append_assoc, ← List.length_append, List.getElem?_append_right (Nat.le_add_right _ _),
    Nat.add_sub_cancel_left]

theorem Place.separates {c : UInt8} (h : Place source (c :: rest) lineStart offset)
    (hc : c = 32 ∨ c = 9 ∨ c = 13 ∨ c = 10 ∨ c = 92 ∧ rest.head? = some 10) : Separates source offset := by
  refine ⟨c, h.getElem? 0, ?_⟩
  rwa [h.getElem? 1, List.getElem?_cons_succ, ← List.head?_eq_getElem?]

theorem isSkipped_of_separates {i : Nat} (h : Separates source i) : ∀ x ∈ source[i]?, isSkipped x = true := by
  obtain ⟨x, hx, hkind⟩ := h
  rw [hx]
  rintro _ ⟨⟩
  rcases hkind with rfl | rfl | rfl | rfl | ⟨rfl, -⟩ <;> rfl

/-- A step over a byte between tokens keeps what was found. -/
theorem State.Reads.move {c : UInt8} (h : s.Reads source (c :: following))
    (hplace : Place source following s'.lineStart s'.offset)
    (hc : c = 32 ∨ c = 9 ∨ c = 13 ∨ c = 10 ∨ c = 92 ∧ following.head? = some 10)
    (hoffset : s'.offset = s.offset + 1) (hfound : s'.found = s.found)
    (hcomments : s'.comments = s.comments) : s'.Reads source following := by
  have hle : s.offset ≤ s'.offset := by omega
  refine ⟨hplace, ?_, ?_, ?_, ?_, ?_⟩
  · rw [hfound]
    exact fun t ht => ⟨(h.tokens t ht).1, (h.tokens t ht).2.trans hle⟩
  · rw [hfound]
    exact h.ordered
  · rw [hcomments]
    exact fun c hc => ⟨(h.comments c hc).1, (h.comments c hc).2.trans hle⟩
  · rw [hfound, hcomments]
    exact h.apart
  · rw [hfound, hcomments]
    intro i hi
    rcases Nat.lt_or_ge i s.offset with hlt | hge
    · exact h.whole i hlt
    · obtain rfl : i = s.offset := by omega
      exact .inl (h.place.separates hc)

theorem State.Reads.token (h : s.Reads source (text ++ following)) {t : Token} {n : Nat}
    (hplace : Place source following s'.lineStart s'.offset) (hstart : t.start = s.offset)
    (hstop : t.stop = s.offset + t.text.length) (htext : t.text = text) (hoffset : s'.offset = t.stop)
    (hlexed : Lexed (.token t.kind n) text following) (hfound : s'.found = s.found ++ [t])
    (hcomments : s'.comments = s.comments) : s'.Reads source following := by
  subst htext
  have hle : s.offset ≤ s'.offset := by omega
  have hstands : t.Stands source := by
    obtain ⟨front, line, hsource, -, -, -, hoffset, hparted⟩ := h.place
    refine ⟨front ++ line, following, n, by rw [hsource, List.append_assoc], ?_, ?_, hparted, hlexed⟩
    · rw [hstart, hoffset, List.length_append]
    · rw [hstop, hoffset, List.length_append]
  refine ⟨hplace, ?_, ?_, ?_, ?_, ?_⟩
  · intro u hu
    rw [hfound] at hu
    rcases List.mem_append.1 hu with hu | hu
    · exact ⟨(h.tokens u hu).1, (h.tokens u hu).2.trans hle⟩
    · rw [List.mem_singleton.1 hu]
      exact ⟨hstands, hoffset.ge⟩
  · rw [hfound, List.pairwise_append]
    refine ⟨h.ordered, List.pairwise_singleton _ _, ?_⟩
    intro u hu v hv
    rw [List.mem_singleton.1 hv, hstart]
    exact (h.tokens u hu).2
  · rw [hcomments]
    exact fun c hc => ⟨(h.comments c hc).1, (h.comments c hc).2.trans hle⟩
  · intro u hu c hc
    rw [hcomments] at hc
    rw [hfound] at hu
    rcases List.mem_append.1 hu with hu | hu
    · exact h.apart u hu c hc
    · rw [List.mem_singleton.1 hu, hstart]
      exact .inr (h.comments c hc).2
  · rw [hfound, hcomments]
    intro i hi
    rcases Nat.lt_or_ge i s.offset with hlt | hge
    · apply (h.whole i hlt).imp_right
      exact Or.imp_left fun ⟨u, hu, hends⟩ => ⟨u, List.mem_append_left _ hu, hends⟩
    · exact .inr (.inl ⟨t, by simp, hstart.trans_le hge, hi.trans_le hoffset.le⟩)

theorem State.Reads.comment (h : s.Reads source (text ++ following)) {c : Comment} {n : Nat}
    (hplace : Place source following s'.lineStart s'.offset) (hline : c.lineStart = s.lineStart)
    (hstart : c.start = s.offset) (hstop : c.stop = s.offset + text.length) (hoffset : s'.offset = c.stop)
    (hlexed : Lexed (.comment n) text following) (hfound : s'.found = s.found)
    (hcomments : s'.comments = c :: s.comments) : s'.Reads source following := by
  have hle : s.offset ≤ s'.offset := by omega
  have hstands : c.Stands source := by
    obtain ⟨front, line, hsource, hfront, hnewline, hlineStart, hoffset, -⟩ := h.place
    exact ⟨front, line, text, following, n, hsource, hfront, hnewline, hline.trans hlineStart,
      hstart.trans hoffset, by rw [hstop, hstart], hlexed⟩
  refine ⟨hplace, ?_, ?_, ?_, ?_, ?_⟩
  · rw [hfound]
    exact fun t ht => ⟨(h.tokens t ht).1, (h.tokens t ht).2.trans hle⟩
  · rw [hfound]
    exact h.ordered
  · rw [hcomments]
    exact List.forall_mem_cons.2 ⟨⟨hstands, hoffset.ge⟩,
      fun d hd => ⟨(h.comments d hd).1, (h.comments d hd).2.trans hle⟩⟩
  · rw [hfound, hcomments]
    intro t ht
    apply List.forall_mem_cons.2 ⟨_, h.apart t ht⟩
    rw [hstart]
    exact .inl (h.tokens t ht).2
  · rw [hfound, hcomments]
    intro i hi
    rcases Nat.lt_or_ge i s.offset with hlt | hge
    · apply (h.whole i hlt).imp_right
      exact Or.imp_right fun ⟨d, hd, hends⟩ => ⟨d, List.mem_cons_of_mem _ hd, hends⟩
    · exact .inr (.inr ⟨c, by simp, hstart.trans_le hge, hi.trans_le hoffset.le⟩)

def State.tokenOf (s : State) (kind : TokenKind) (text : Bytes) : Token where
  kind
  text
  start := s.offset
  stop := s.offset + text.length
  depth := if kind = .operator ∧ (text.head?.map isClosing).getD false then s.depth - 1 else s.depth

theorem found_step_token (s : State) (c : UInt8) (rest : Bytes) (kind : TokenKind) (n : Nat) :
    (s.step c rest (.token kind n)).found = s.found ++ [s.tokenOf kind (c :: rest.take n)] := by
  show s.logicals.reverse.flatMap _ ++ (_ :: s.tokens).reverse = _
  rw [List.reverse_cons, ← List.append_assoc]
  rfl

theorem found_step_newline (s : State) (c : UInt8) (rest : Bytes) :
    (s.step c rest .newline).found = s.found := by
  rw [State.step]
  dsimp only
  split
  · simp [State.found]
  · rfl

theorem offset_step (s : State) (c : UInt8) (rest : Bytes) (lexeme : Lexeme) :
    (s.step c rest lexeme).offset = s.offset + (c :: rest.take lexeme.more).length := by
  cases lexeme with
  | newline =>
    rw [State.step]
    dsimp only
    split <;> rfl
  | continuation => rfl
  | blank => rfl
  | comment => rfl
  | token => rfl

theorem isString_of_mem_newline {kind : TokenKind} {n : Nat} (h : Lexed (.token kind n) text following)
    (hnewline : 10 ∈ text) : kind = .string := by
  by_contra hkind
  exact (h.word_ends hkind).1 hnewline

/-- Behind a token the line starts where it did, or behind the last end of a line in the token, which then is
a string. -/
theorem Place.token {kind : TokenKind} {n : Nat} (h : Place source (text ++ following) lineStart offset)
    (hlexed : Lexed (.token kind n) text following) : Place source following
      (if kind = .string ∧ (text.reverse.takeWhile (!isNewline ·)).length < text.length then
        offset + text.length - (text.reverse.takeWhile (!isNewline ·)).length else lineStart)
      (offset + text.length) := by
  obtain ⟨tail, htext, htail, hbody, hlength⟩ := exists_trimEnd (!isNewline ·) text
  generalize trimEnd (!isNewline ·) text = body at htext hbody
  have htail : 10 ∉ tail := fun hmem => absurd (htail 10 hmem) (by decide)
  have hbody : ∀ x ∈ body.getLast?, x = 10 := by
    intro x hx
    have hx := hbody x hx
    rw [Bool.not_eq_false', isNewline, beq_iff_eq] at hx
    exact hx
  have hsum : text.length = body.length + tail.length := by rw [htext, List.length_append]
  rw [← hlength]
  by_cases hne : body = []
  · rw [if_neg (by rw [hsum, hne]; simp)]
    apply h.inline _ hlexed.ne_nil hlexed.parted
    rw [htext, hne, List.nil_append]
    exact htail
  · have hmem : 10 ∈ text := by
      obtain ⟨body, x, rfl⟩ := (List.eq_nil_or_concat body).resolve_left hne
      rw [List.concat_eq_append] at htext hbody
      rw [htext, hbody x (by simp)]
      simp
    have hpos := List.length_pos_of_ne_nil hne
    have hstart : offset + text.length - tail.length = offset + body.length := by omega
    rw [if_pos ⟨isString_of_mem_newline hlexed hmem, by omega⟩, hstart]
    exact h.break htext hne hbody htail hlexed.parted

theorem State.Reads.step {c : UInt8} (h : s.Reads source (c :: rest)) :
    (s.step c rest (firstLexeme c rest)).Reads source (rest.drop (firstLexeme c rest).more) := by
  have hlexed := lexed_firstLexeme c rest
  generalize firstLexeme c rest = lexeme at hlexed ⊢
  have hsource : c :: rest = (c :: rest.take lexeme.more) ++ rest.drop lexeme.more := by
    rw [List.cons_append, List.take_append_drop]
  rw [hsource] at h
  have hinline : 10 ∉ c :: rest.take lexeme.more → Place source (rest.drop lexeme.more) s.lineStart
      (s.offset + (c :: rest.take lexeme.more).length) := fun hline =>
    h.place.inline hline hlexed.ne_nil hlexed.parted
  cases lexeme with
  | newline =>
    have hlast : ∀ x ∈ [c].getLast?, x = 10 := by
      cases hlexed
      simp
    have hplace := h.place.break (List.append_nil [c]).symm (by simp) hlast (by simp) hlexed.parted
    refine h.move ?_ ?_ ?_ (found_step_newline s c rest) ?_
    · rw [State.step]
      dsimp only
      split
      · exact hplace
      · exact hplace
    · cases hlexed
      exact .inr (.inr (.inr (.inl rfl)))
    · rw [State.step]
      dsimp only
      split <;> rfl
    · rw [State.step]
      dsimp only
      split <;> rfl
  | continuation =>
    refine h.move ?_ ?_ rfl rfl rfl
    · apply hinline
      cases hlexed
      simp [Lexeme.more]
    · generalize rest.drop Lexeme.continuation.more = following at hlexed
      cases hlexed
      exact .inr (.inr (.inr (.inr ⟨rfl, rfl⟩)))
  | blank =>
    have htext : c = 32 ∨ c = 9 ∨ c = 13 := by
      cases hlexed with
      | blank hc => exact hc
    refine h.move ?_ ?_ rfl rfl rfl
    · apply hinline
      rcases htext with rfl | rfl | rfl <;> simp [Lexeme.more]
    · exact htext.imp_right (Or.imp_right .inl)
  | comment n =>
    refine h.comment (n := n) ?_ rfl rfl rfl rfl hlexed rfl rfl
    apply hinline
    cases hlexed with
    | comment hline => simpa [Lexeme.more] using hline
  | token kind n =>
    dsimp only [Lexeme.more] at h hlexed hinline ⊢
    exact h.token (h.place.token hlexed) rfl rfl rfl rfl hlexed (found_step_token s c rest kind n) rfl

theorem State.Reads.run (h : s.Reads source rest) : (s.run rest).Reads source [] := by
  fun_induction State.run s rest with
  | case1 => exact h
  | case2 s c rest lexeme ih => exact ih h.step

end

def tokensOf (source : Bytes) : List Token := (tokenize source).1.flatMap LogicalLine.tokens

theorem tokensOf_eq (source : Bytes) : tokensOf source = (State.run {} source).found := by
  rw [tokensOf, tokenize, State.found]
  dsimp only
  rw [List.flatMap_append]
  congr 1
  split
  · simp
  · next h =>
    rw [Bool.or_eq_true, not_or] at h
    have hnil : (State.run {} source).tokens = [] := by simpa using h.2
    rw [hnil]
    rfl

theorem State.reads (source : Bytes) : (State.run {} source).Reads source [] := by
  have hstart : State.Reads source source {} :=
    ⟨⟨[], [], by simp [Parted]⟩, by simp [State.found], by simp [State.found], by simp, by simp, by simp⟩
  exact hstart.run

/-- What is found in a source stands where it says; tokens are in order, and comments between them. -/
theorem reads_tokenize (source : Bytes) :
    (∀ t ∈ tokensOf source, t.Stands source) ∧
    (tokensOf source).Pairwise (fun a b => a.stop ≤ b.start) ∧
    (∀ c ∈ (tokenize source).2, c.Stands source) ∧
    ∀ t ∈ tokensOf source, ∀ c ∈ (tokenize source).2, t.stop ≤ c.start ∨ c.stop ≤ t.start := by
  have hrun := State.reads source
  have hcomments : ∀ c ∈ (tokenize source).2, c ∈ (State.run {} source).comments := fun c hc =>
    List.mem_reverse.1 hc
  rw [tokensOf_eq]
  exact ⟨fun t ht => (hrun.tokens t ht).1, hrun.ordered, fun c hc => (hrun.comments c (hcomments c hc)).1,
    fun t ht c hc => hrun.apart t ht c (hcomments c hc)⟩

theorem offset_run (source : Bytes) : (State.run {} source).offset = source.length := by
  obtain ⟨front, line, hsource, -, -, -, hoffset, -⟩ := (State.reads source).place
  rw [hoffset, hsource, List.append_nil, List.length_append]

/-- Every byte lies in a token or a comment, or stands between them. -/
theorem exists_covers_tokenize (source : Bytes) : ∀ i < source.length, Separates source i ∨
    (∃ t ∈ tokensOf source, t.start ≤ i ∧ i < t.stop) ∨
      ∃ c ∈ (tokenize source).2, c.start ≤ i ∧ i < c.stop := by
  intro i hi
  rw [tokensOf_eq]
  apply ((State.reads source).whole i ((offset_run source).ge.trans_lt' hi)).imp_right
  exact Or.imp_right fun ⟨c, hc, hends⟩ => ⟨c, List.mem_reverse.2 hc, hends⟩

/-- Every byte that is not skipped lies in a token or a comment. -/
theorem whole_tokenize (source : Bytes) : ∀ i, ∀ x ∈ source[i]?, isSkipped x = true ∨
    (∃ t ∈ tokensOf source, t.start ≤ i ∧ i < t.stop) ∨
      ∃ c ∈ (tokenize source).2, c.start ≤ i ∧ i < c.stop := by
  intro i x hx
  obtain ⟨hi, -⟩ := List.getElem?_eq_some_iff.1 hx
  exact (exists_covers_tokenize source i hi).imp_left fun h => isSkipped_of_separates h x hx

end Bindery.Listing.Python
