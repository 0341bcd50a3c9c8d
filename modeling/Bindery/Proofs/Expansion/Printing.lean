import Bindery.Proofs.Expansion.Conversation
import Bindery.Proofs.Expansion.Mark
import Bindery.Proofs.Label
import Bindery.Proofs.Listing.Extract

/-!
# What directives print

A directive prints words of its own, labels, texts that the pass reads, and some of its arguments. If
the texts that the pass reads are tidy, then no marks are in the output but those in the arguments that
are printed, in their order.
-/

namespace Bindery.Expansion

open Text

/-! ## Texts that a pass reads -/

/-- What the title of a type of definitions brings into a pass: nothing if it is made of the type. -/
def titleReadings (type title : Bytes) : List Bytes := if title = Text.title type then [] else [title]

/-- The texts that an exchange brings into a pass. -/
def Exchange.readings : Exchange → List Bytes
  | ⟨.text _, answer⟩ => (answer : Except Fault Bytes).toOption.toList
  | ⟨.definitionTitle type, answer⟩ => titleReadings type answer
  | ⟨.snapshot _, answer⟩ =>
    match (answer : Except Fault Snapshot) with
    | .ok snapshot => [snapshot.webPage, snapshot.commit]
    | .error _ => []
  | ⟨.note (.opened _ _ text), _⟩ => [text]
  | ⟨.note (.sourced _ text), _⟩ => [text]
  | _ => []

/-- The texts that are taken from the checkout that holds the book. -/
def Checkout.readings : Checkout → List Bytes
  | .found snapshot => [snapshot.name, snapshot.webPage, snapshot.commit]
  | _ => []

/-- The texts that a pass is given: names of files, the description of the language, and the
checkout. -/
def Setting.readings (s : Setting) : List Bytes :=
  s.tree.entries.flatMap (·.1) ++ [s.lang.active.id, s.lang.active.name, s.lang.active.locale] ++
    s.checkout.readings

/-- All texts that a pass reads. -/
def readings (fetch : Repository.Fetcher) (services : Services) (pass : Setting × Bytes) :
    List Bytes :=
  pass.1.readings ++ (conversation fetch services pass).flatMap Exchange.readings

/-! ## Words of the library -/

theorem tidy_ofNat (n : Nat) : Tidy (ofNat n) :=
  tidy_of_ascii fun _ hc => lt_of_isDigit (isDigit_of_mem_ofNat hc)

theorem tidy_padZeros (width n : Nat) : Tidy (padZeros width (ofNat n)) := by
  refine Tidy.append (tidy_of_ascii fun c hc => ?_) (tidy_ofNat n)
  rw [List.eq_of_mem_replicate hc]
  decide

section Moment

variable (t : Moment)

theorem tidy_yearText (y : Int) : Tidy (Moment.yearText y) := by
  refine Tidy.append ?_ (tidy_padZeros 4 _)
  split
  · exact tidy_bytes rfl
  · exact tidy_nil

theorem tidy_dateText : Tidy t.dateText := by
  have hmonth := ((tidy_yearText t.date.year).append (tidy_bytes (s := "-") rfl)).append
    (tidy_padZeros 2 t.date.month)
  exact (hmonth.append (tidy_bytes (s := "-") rfl)).append (tidy_padZeros 2 t.date.day)

theorem tidy_hourMinuteText : Tidy t.hourMinuteText :=
  ((tidy_padZeros 2 _).append (tidy_bytes (s := ":") rfl)).append (tidy_padZeros 2 _)

theorem tidy_offsetText (offset : Int) : Tidy (Moment.offsetText [] offset) := by
  refine (Tidy.append (Tidy.append ?_ (tidy_padZeros 2 _)) tidy_nil).append (tidy_padZeros 2 _)
  split
  · exact tidy_bytes rfl
  · exact tidy_bytes rfl

theorem tidy_documentText : Tidy t.documentText := by
  have hclock := ((tidy_dateText t).append (tidy_bytes (s := " ") rfl)).append (tidy_hourMinuteText t)
  exact (hclock.append (tidy_bytes (s := " UTC") rfl)).append (tidy_offsetText t.offset)

end Moment

theorem lt_of_isKeyByte {c : UInt8} (h : Label.isKeyByte c) : c < 0x80 := by
  have hsign : ∀ {a : UInt8}, a < 0x80 → (c == a) = true → c < 0x80 := by
    intro a ha hc
    rwa [eq_of_beq hc]
  rw [Label.isKeyByte, isWord] at h
  simp only [Bool.or_eq_true] at h
  rcases h with ((((h | h) | h) | h) | h) | h
  · exact lt_of_isLetter h
  · exact lt_of_isDigit h
  all_goals exact hsign (by decide) h

theorem lt_of_isKey {s : Bytes} (h : Label.isKey s = true) : ∀ c ∈ s, c < 0x80 := by
  rw [Label.isKey, Bool.and_eq_true, List.all_eq_true] at h
  exact fun c hc => lt_of_isKeyByte (h.2 c hc)

theorem tidy_of_isKey {s : Bytes} (h : Label.isKey s = true) : Tidy s := tidy_of_ascii (lt_of_isKey h)

/-! ## Titles -/

theorem lt_of_mem_encodeRune {r : Nat} (h : r < 0x80) {c : UInt8} (hc : c ∈ encodeRune r) :
    c < 0x80 := by
  rw [encodeRune, if_pos h, List.mem_singleton] at hc
  rw [hc, UInt8.lt_iff_toNat_lt, Nat.toUInt8_eq, UInt8.toNat_ofNat]
  exact Nat.lt_of_le_of_lt (Nat.mod_le r _) h

theorem upperRune_lt {r : Nat} (h : r < 0x80) : upperRune r < 0x80 := by
  by_cases hletter : 97 ≤ r ∧ r ≤ 122
  · rw [upperRune, if_pos hletter]
    omega
  · rw [upperRune, if_neg hletter, if_pos h]
    exact h

theorem lowerRune_lt {r : Nat} (h : r < 0x80) : lowerRune r < 0x80 := by
  by_cases hletter : 65 ≤ r ∧ r ≤ 90
  · rw [lowerRune, if_pos hletter]
    omega
  · rw [lowerRune, if_neg hletter, if_pos h]
    exact h

def AllAscii (rs : List (Nat × Bytes)) : Prop := ∀ r ∈ rs, r.1 < 0x80 ∧ ∀ c ∈ r.2, c < 0x80

theorem allAscii_runes {s : Bytes} (h : ∀ c ∈ s, c < 0x80) : AllAscii (runes s) := by
  induction s with
  | nil => exact fun r hr => absurd hr List.not_mem_nil
  | cons c s ih =>
    obtain ⟨hc, hs⟩ := List.forall_mem_cons.1 h
    have hfirst : firstRune (c :: s) = (c.toNat, 1) := by
      rw [firstRune.eq_def]
      simp only [hc, if_true]
    have hrunes : runes (c :: s) = (c.toNat, [c]) :: runes s := by
      rw [runes, runesAfter, hfirst]
      rfl
    rw [hrunes]
    refine List.forall_mem_cons.2 ⟨⟨UInt8.lt_iff_toNat_lt.1 hc, ?_⟩, ih hs⟩
    simpa using hc

theorem lt_of_mem_titleFrom {inside joined : Bool} {rs : List (Nat × Bytes)} (h : AllAscii rs) :
    ∀ c ∈ titleFrom inside joined rs, c < 0x80 := by
  induction rs generalizing inside joined with
  | nil => simp [titleFrom]
  | cons first rest ih =>
    obtain ⟨r, source⟩ := first
    obtain ⟨⟨hr, hsource⟩, hrest⟩ := List.forall_mem_cons.1 h
    have hr : r < 0x80 := hr
    have hletter : ∀ c ∈ (if inside then innerLetter r source rest else titleLetter r), c < 0x80 := by
      have hsharp : r ≠ 0xDF := by omega
      have hsigma : ¬ (r = 0x3A3 ∧ endsWord rest) := by omega
      intro c hc
      split at hc
      · rw [innerLetter, if_neg hsharp, if_neg hsigma] at hc
        exact lt_of_mem_encodeRune (lowerRune_lt hr) hc
      · rw [titleLetter, if_neg hsharp] at hc
        exact lt_of_mem_encodeRune (upperRune_lt hr) hc
    rw [titleFrom]
    split
    · exact List.forall_mem_append.2 ⟨hletter, ih hrest⟩
    all_goals exact List.forall_mem_append.2 ⟨hsource, ih hrest⟩

theorem tidy_title {s : Bytes} (h : Label.isKey s = true) : Tidy (Text.title s) :=
  tidy_of_ascii (lt_of_mem_titleFrom (allAscii_runes (lt_of_isKey h)))

/-! ## Names of files -/

theorem tidy_clean {p : Bytes} (h : ∀ c ∈ Path.cleanComponents p, Tidy c) : Tidy (Path.clean p) := by
  have hbody : Tidy (joinWith [47] (Path.cleanComponents p)) :=
    Tidy.joinWith (tidy_of_isAscii (by decide)) h
  unfold Path.clean
  dsimp only
  split
  · exact Tidy.append (a := [47]) (tidy_of_isAscii (by decide)) hbody
  · split
    · exact tidy_of_isAscii (by decide)
    · exact hbody

theorem dropShared_subset (as bs : List Bytes) : (Path.dropShared as bs).2 ⊆ bs := by
  obtain ⟨shared, -, hbs⟩ := Path.dropShared_append as bs
  intro c hc
  rw [hbs]
  exact List.mem_append_right _ hc

theorem tidy_relative? {start target path : Bytes} (h : ∀ c ∈ Path.cleanComponents target, Tidy c)
    (hpath : Path.relative? start target = some path) : Tidy path := by
  unfold Path.relative? at hpath
  dsimp only at hpath
  split at hpath
  · cases hpath
    exact tidy_of_isAscii (by decide)
  · generalize (if Path.clean start == [46] then [] else Path.clean start) = origin at hpath
    split at hpath
    · cases hpath
    · split at hpath
      · cases hpath
      · cases hpath
        refine Tidy.joinWith (tidy_of_isAscii (by decide)) fun c hc => ?_
        rcases List.mem_append.1 hc with hc | hc
        · rw [List.eq_of_mem_replicate hc]
          exact tidy_bytes rfl
        · have hmem := List.mem_of_mem_filter (dropShared_subset _ _ hc)
          exact Tidy.splitOn (by decide) (tidy_clean h) c hmem

/-- The components of a path that names a file are names of files. -/
theorem tidy_components {tree : FileTree} (htree : ∀ e ∈ tree.entries, ∀ c ∈ e.1, Tidy c)
    {path : Bytes} (hfile : tree.isFile path = true) :
    ∀ c ∈ Path.cleanComponents path, Tidy c := by
  intro c hc
  obtain ⟨text, hread⟩ := FileTree.read_of_isFile hfile
  rcases FileTree.mem_components (t := tree) hc with rfl | hc
  · exact tidy_bytes rfl
  · exact htree _ (FileTree.mem_of_read hread) c hc

theorem tidy_resourceTarget {path : Bytes} (h : Tidy path) : Tidy (resourceTarget path) := by
  unfold resourceTarget
  split
  · exact (h.start (isPrefix_withoutEnd _ _)).append (tidy_bytes rfl)
  · exact h

theorem tidy_fileLink {address commit path : Bytes} (hpage : Tidy (Repository.webPage address))
    (hcommit : Tidy commit) (hpath : Tidy path) : Tidy (Repository.fileLink address commit path) := by
  have hwords : ∀ host, Tidy (Repository.blobWords host) := by
    intro host
    unfold Repository.blobWords
    split
    · exact tidy_bytes rfl
    · split
      · exact tidy_bytes rfl
      · exact tidy_bytes rfl
  have hrest : Tidy (withoutStart (bytes "/") path) := by
    rcases withoutStart_cases (bytes "/") path with hcut | ⟨-, hkept⟩
    · rw [hcut] at hpath
      exact Tidy.of_cons (c := 47) hpath (by decide)
    · rwa [hkept]
  exact (((hpage.append (hwords _)).append hcommit).append (tidy_bytes (s := "/") rfl)).append hrest

theorem tidy_fileLink? {snapshot : Snapshot} (hpage : Tidy snapshot.webPage)
    (hcommit : Tidy snapshot.commit) {path : Bytes} (h : ∀ c ∈ Path.cleanComponents path, Tidy c)
    (hpath : Path.isAbsolute path = true ∨ ∃ p, path = Path.clean p) :
    Tidy ((snapshot.fileLink? path).getD []) := by
  unfold Snapshot.fileLink?
  split
  · exact tidy_nil
  · split
    · split
      · cases hrelative : Path.relative? snapshot.root path with
        | none => exact tidy_nil
        | some rel => exact tidy_fileLink hpage hcommit (tidy_relative? h hrelative)
      · exact tidy_nil
    · next hrel =>
      obtain ⟨p, rfl⟩ := hpath.resolve_left hrel
      rw [Path.cleanComponents_clean] at h
      exact tidy_fileLink hpage hcommit (tidy_clean h)

/-! ## Directives that were done -/

/-- A directive that a pass has done. -/
structure Performance where
  path : Bytes
  line : Nat
  directive : Directive
  args : List Bytes
  output : Bytes
  deriving DecidableEq, Repr

/-- An argument of a directive, empty if it has none there. -/
def Performance.arg (p : Performance) (i : Nat) : Bytes := p.args[i]?.getD []

/-- The directive that a note tells of. -/
def Exchange.performance? : Exchange → Option Performance
  | ⟨.note (.performed path line directive args output), _⟩ =>
    some { path, line, directive, args, output }
  | _ => none

/-- The directives that a conversation tells of, in the order in which they were done. -/
def performances (trace : List Exchange) : List Performance := trace.filterMap Exchange.performance?

@[simp] theorem performances_nil : performances [] = [] := rfl

@[simp] theorem performances_append (trace trace' : List Exchange) :
    performances (trace ++ trace') = performances trace ++ performances trace' :=
  List.filterMap_append

/-- The conduct of steps that neither define nor refer to anything, and note no directive. -/
def silent : Conduct where
  given e := ∀ text ∈ e.readings, Tidy text
  ok d trace d' := performances trace = [] ∧ d'.pending = d.pending ∧
    d'.registry.definitions = d.registry.definitions ∧ d'.registry.titles = d.registry.titles ∧
    (d.registry.Sound → d'.registry.Sound)
  fail _ _ _ := True
  refl _ := ⟨rfl, rfl, rfl, rfl, id⟩
  trans h h' := ⟨by rw [performances_append, h.1, h'.1]; rfl, h'.2.1.trans h.2.1,
    h'.2.2.1.trans h.2.2.1, h'.2.2.2.1.trans h.2.2.2.1, h'.2.2.2.2 ∘ h.2.2.2.2⟩
  fail_trans _ _ := trivial

/-- A silent step with a result such that `Q`. -/
def Prints {α : Type} (x : Pass α) (Q : α → Prop) : Prop := ∀ d, silent.Holds d x fun a _ => Q a

section Prints

variable {α β : Type} {Q : α → Prop} {R : β → Prop}

theorem prints_pure {a : α} (h : Q a) : Prints (pure a) Q := fun _ => Conduct.holds_pure h

theorem prints_throw (fault : Fault) : Prints (throw fault) Q := fun _ => Conduct.holds_throw trivial

theorem prints_throw_bind (fault : Fault) (f : α → Pass β) : Prints (throw fault >>= f) R :=
  prints_throw (α := β) fault

theorem Prints.bind {x : Pass α} {f : α → Pass β} (hx : Prints x Q) (hf : ∀ a, Q a → Prints (f a) R) :
    Prints (x >>= f) R := fun d => (hx d).bind fun a d' _ _ ha => hf a ha d'

theorem prints_ite {c : Prop} [Decidable c] {x y : Pass α} (hx : Prints x Q) (hy : Prints y Q) :
    Prints (if c then x else y) Q := by
  split
  · exact hx
  · exact hy

theorem prints_require {result : Except Fault α} (h : ∀ a, result = .ok a → Q a) :
    Prints (Pass.require result) Q := fun _ => Conduct.holds_require h fun _ _ => trivial

theorem prints_require_mapError {ε : Type} {result : Except ε α} {toFault : ε → Fault}
    (h : ∀ a, result = .ok a → Q a) : Prints (Pass.require (result.mapError toFault)) Q := by
  refine prints_require fun a ha => ?_
  cases result with
  | ok a' =>
    cases ha
    exact h a rfl
  | error refusal => cases ha

theorem prints_get_bind {f : Draft → Pass β} (hf : ∀ d, silent.Holds d (f d) fun b _ => R b) :
    Prints (get >>= f) R := fun _ =>
  (Conduct.holds_get (Q := fun draft d' => draft = d') rfl).bind fun draft _ _ _ heq => heq ▸ hf draft

theorem prints_modify {f : Draft → Draft} {Q : PUnit → Prop} (hpending : ∀ d, (f d).pending = d.pending)
    (hregistry : ∀ d, (f d).registry = d.registry) (h : Q ⟨⟩) : Prints (modify f : Pass PUnit) Q :=
  fun d => Conduct.holds_modify
    ⟨rfl, hpending d, by rw [hregistry], by rw [hregistry], by rw [hregistry]; exact id⟩ h

theorem prints_ask {request : Request} {Q : request.Answer → Prop}
    (hrequest : ∀ answer, Exchange.performance? ⟨request, answer⟩ = none)
    (h : ∀ answer, (∀ text ∈ Exchange.readings ⟨request, answer⟩, Tidy text) → Q answer) :
    Prints (Pass.ask request) Q := fun _ => Conduct.holds_ask fun answer hgiven =>
  ⟨⟨by simp [performances, hrequest answer], rfl, rfl, rfl, id⟩, h answer hgiven⟩

/-- A label of a built-in kind is no definition. -/
theorem prints_define {kind : Bytes} (hkind : Label.isBuiltin kind = true) (key : Bytes) :
    Prints (define kind key) fun _ => Label.isKey key = true := by
  refine prints_get_bind fun d => ?_
  cases hdefine : d.registry.define kind key with
  | error refusal => exact prints_throw _ d
  | ok result =>
    obtain ⟨number, registry⟩ := result
    refine Conduct.Holds.bind (Q := fun _ _ => True) ?_ fun _ d' _ _ _ => ?_
    · exact Conduct.holds_set ⟨rfl, rfl, Label.Registry.definitions_define_builtin hdefine hkind,
        Label.Registry.titles_define hdefine, fun hsound => hsound.define hdefine⟩ trivial
    · exact Conduct.holds_pure (Label.Registry.define_eq_ok hdefine).2.1

end Prints

section Directives

variable {s : Setting} {ks ls : List Nat}

theorem tidy_tree (hs : ∀ text ∈ s.readings, Tidy text) : ∀ e ∈ s.tree.entries, ∀ c ∈ e.1, Tidy c := by
  intro e he c hc
  refine hs c (List.mem_append_left _ (List.mem_append_left _ ?_))
  exact List.mem_flatMap.2 ⟨e, he, hc⟩

theorem tidy_lang (hs : ∀ text ∈ s.readings, Tidy text) :
    Tidy s.lang.active.id ∧ Tidy s.lang.active.name ∧ Tidy s.lang.active.locale := by
  have hmem : ∀ text ∈ [s.lang.active.id, s.lang.active.name, s.lang.active.locale], Tidy text :=
    fun text h => hs text (List.mem_append_left _ (List.mem_append_right _ h))
  simpa using hmem

/-- A checkout that is known by tidy texts, if there is one. -/
def TidyCheckout (checkout : Option Snapshot) : Prop := ∀ snapshot, checkout = some snapshot →
  Tidy snapshot.name ∧ Tidy snapshot.webPage ∧ Tidy snapshot.commit

theorem prints_projectCheckout (hs : ∀ text ∈ s.readings, Tidy text) :
    Prints s.projectCheckout TidyCheckout := by
  have hnone : Prints (pure none) TidyCheckout := prints_pure fun _ heq => by cases heq
  rw [Setting.projectCheckout]
  split
  · exact hnone
  · next snapshot hcheckout =>
    refine prints_pure fun snapshot' heq => ?_
    cases heq
    have hmem : ∀ text ∈ s.checkout.readings, Tidy text :=
      fun text h => hs text (List.mem_append_right _ h)
    rw [hcheckout] at hmem
    simpa [Checkout.readings] using hmem
  · refine prints_get_bind fun d => ?_
    split
    · refine Prints.bind (Q := fun _ => True) (prints_modify (fun _ => ?_) (fun _ => ?_) trivial)
        (fun _ _ => ?_) d
      · rfl
      · rfl
      · exact Prints.bind (Q := fun _ => True) (prints_ask (fun _ => rfl) fun _ _ => trivial)
          fun _ _ => hnone
    · exact hnone d

/-! ### Listings -/

theorem tidy_fence (path : Bytes) : Tidy (Listing.Language.ofPath path).fence := by
  have htable : ∀ e ∈ Listing.Language.bySuffix, isAscii e.2.fence = true := by decide
  rw [Listing.Language.ofPath]
  cases hlookup : Listing.Language.bySuffix.lookup ((Path.ext path).map lowerByte) with
  | none => exact tidy_nil
  | some language =>
    obtain ⟨before, after, htable', -⟩ := List.lookup_eq_some_iff.1 hlookup
    have hmem : ((Path.ext path).map lowerByte, language) ∈ Listing.Language.bySuffix := by
      rw [htable']
      exact List.mem_append_right _ List.mem_cons_self
    exact tidy_of_isAscii (htable _ hmem)

theorem marked_listingCaption {caption url : Bytes} (hcaption : Marked caption ks) (hurl : Tidy url) :
    Marked (listingCaption caption url) ks := by
  have hended : Marked (if (trim caption).isEmpty || (trim caption).getLast?.any
      (fun c : UInt8 => c == '.' || c == '!' || c == '?') then trim caption
      else trim caption ++ bytes ".") ks := by
    split
    · exact hcaption.trim
    · exact hcaption.trim.append_tidy (tidy_bytes rfl)
  unfold listingCaption
  refine Marked.trim ?_
  split
  · exact hended
  · refine Marked.append_tidy (Marked.append_tidy ?_ hurl) (tidy_bytes (s := "))") rfl)
    exact hended.append_tidy (tidy_bytes (s := " ([src](") rfl)

theorem marked_fencedListing {label caption fence body : Bytes} (hlabel : Tidy label)
    (hcaption : Marked caption ks) (hfence : Tidy fence) (hbody : Tidy body) :
    Marked (fencedListing label caption fence body) ks := by
  have hclass : Tidy (if fence.isEmpty then [] else bytes " ." ++ fence) := by
    split
    · exact tidy_nil
    · exact Tidy.append (tidy_bytes (s := " .") rfl) hfence
  unfold fencedListing
  refine Marked.append_tidy ?_ (tidy_bytes (s := "\n```") rfl)
  refine Marked.append_tidy ?_ hbody
  refine Marked.append_tidy ?_ (tidy_bytes (s := " .numberLines\x7d\n") rfl)
  refine Marked.append_tidy (Marked.append_tidy ?_ hlabel) hclass
  refine Marked.append_tidy ?_ (tidy_bytes (s := "\n\n```\x7b#lst:") rfl)
  exact Marked.tidy_append (tidy_bytes rfl) hcaption

theorem prints_listing {path url : Bytes} {r : ListingRequest} (hurl : Tidy url)
    (hcaption : Marked r.caption ks) : Prints (listing s path url r) (Marked · ks) := by
  refine Prints.bind (Q := fun _ => True) (prints_require_mapError fun _ _ => trivial)
    fun source _ => ?_
  refine Prints.bind (Q := fun _ => Tidy source) (prints_ask (fun _ => rfl) fun _ htidy => ?_)
    fun _ hsource => ?_
  · exact htidy source List.mem_cons_self
  · refine Prints.bind (Q := Tidy) (prints_require_mapError fun body hbody => ?_) fun body hbody => ?_
    · exact Listing.tidy_extract hsource hbody
    · refine Prints.bind (prints_define (by decide) _) fun _ hkey => ?_
      exact prints_pure (marked_fencedListing (tidy_of_isKey hkey)
        (marked_listingCaption hcaption hurl) (tidy_fence path) hbody)

theorem prints_localListing (hroot : Path.isAbsolute s.resolver.root = true)
    (hs : ∀ text ∈ s.readings, Tidy text) {dir file : Bytes} {r : ListingRequest}
    (hcaption : Marked r.caption ks) : Prints (localListing s dir file r) (Marked · ks) := by
  refine Prints.bind (Q := fun path => s.tree.isFile path = true ∧ Path.isAbsolute path = true)
    (prints_require_mapError fun path hpath => ?_) fun path hpath => ?_
  · obtain ⟨hfile, hinside, -⟩ := Resolver.resolve_cases hpath
    exact ⟨hfile, Path.isAbsolute_of_contains hroot hinside⟩
  · refine Prints.bind (prints_projectCheckout hs) fun checkout hcheckout => ?_
    refine prints_listing ?_ hcaption
    cases checkout with
    | none => exact tidy_nil
    | some snapshot =>
      obtain ⟨-, hpage, hcommit⟩ := hcheckout snapshot rfl
      exact tidy_fileLink? hpage hcommit (tidy_components (tidy_tree hs) hpath.1) (.inl hpath.2)

theorem prints_repositoryListing (hs : ∀ text ∈ s.readings, Tidy text) {mnemonic file : Bytes}
    {r : ListingRequest} (hcaption : Marked r.caption ks) :
    Prints (repositoryListing s mnemonic file r) (Marked · ks) := by
  rw [repositoryListing]
  split
  · exact prints_throw_bind _ _
  · refine Prints.bind (Q := fun answer => ∀ snapshot,
      (answer : Except Fault Snapshot) = .ok snapshot → Tidy snapshot.webPage ∧ Tidy snapshot.commit)
      (prints_ask (fun _ => rfl) fun answer htidy snapshot hanswer => ?_) fun answer hanswer => ?_
    · rw [hanswer] at htidy
      simpa [Exchange.readings] using htidy
    · refine Prints.bind (Q := fun snapshot : Snapshot => Tidy snapshot.webPage ∧ Tidy snapshot.commit)
        (prints_require hanswer) fun snapshot hsnapshot => ?_
      refine Prints.bind (Q := fun path => s.tree.isFile path = true ∧ ∃ p, path = Path.clean p)
        (prints_require_mapError fun path hpath => Resolver.resolveInside_cases hpath)
        fun path hpath => ?_
      refine prints_listing ?_ hcaption
      exact tidy_fileLink? hsnapshot.1 hsnapshot.2 (tidy_components (tidy_tree hs) hpath.1)
        (.inr hpath.2)

/-! ### Figures -/

theorem prints_figure (hs : ∀ text ∈ s.readings, Tidy text) {dir label caption file attributes : Bytes}
    (hcaption : Marked caption ks) (hattributes : Marked attributes ls) :
    Prints (figure s dir label caption file attributes) (Marked · (ks ++ ls)) := by
  refine Prints.bind (Q := fun path => s.tree.isFile path = true)
    (prints_require_mapError fun path hpath => (Resolver.resolve_cases hpath).1) fun path hpath => ?_
  refine Prints.bind (Q := Tidy) (prints_require_mapError fun shown hshown => ?_) fun shown hshown => ?_
  · rw [Resolver.relative] at hshown
    split at hshown
    · next rel hrel =>
      split at hshown
      · cases hshown
        exact tidy_relative? (tidy_components (tidy_tree hs) hpath) hrel
      · cases hshown
    · cases hshown
  · refine Prints.bind (prints_define (by decide) _) fun _ hkey => ?_
    refine Prints.bind (Q := fun _ => True) (prints_modify (fun d => ?_) (fun d => ?_) trivial)
      fun _ _ => prints_pure ?_
    · split <;> rfl
    · split <;> rfl
    · have hextra : Marked (bytes "#fig:" ++ trim label ++
          if (trim attributes).isEmpty then [] else bytes " " ++ trim attributes) ls := by
        refine Marked.tidy_append (Tidy.append (tidy_bytes (s := "#fig:") rfl) (tidy_of_isKey hkey)) ?_
        have hls := hattributes.trim
        split
        · next hempty =>
          rw [List.isEmpty_iff] at hempty
          rwa [hempty] at hls
        · exact Marked.tidy_append (tidy_bytes rfl) hls
      have hlink : Marked (bytes "![" ++ trim caption ++ bytes "](" ++ resourceTarget shown ++
          bytes ")\x7b") ks := by
        refine Marked.append_tidy ?_ (tidy_bytes rfl)
        refine Marked.append_tidy ?_ (tidy_resourceTarget hshown)
        exact (Marked.tidy_append (tidy_bytes rfl) hcaption.trim).append_tidy (tidy_bytes (s := "](") rfl)
      exact (hlink.append hextra).append_tidy (tidy_bytes (s := "\x7d") rfl)

/-! ### Metadata -/

theorem prints_languageField (key : Bytes) {field : Descriptor → Bytes}
    (h : Tidy (field s.lang.active)) : Prints (languageField s key field) Tidy :=
  prints_ite (prints_throw _) (prints_pure h)

theorem prints_checkoutField (hs : ∀ text ∈ s.readings, Tidy text) {field : Snapshot → Bytes}
    (h : ∀ snapshot, Tidy snapshot.name ∧ Tidy snapshot.webPage ∧ Tidy snapshot.commit →
      Tidy (field snapshot)) : Prints (checkoutField s field) Tidy := by
  refine Prints.bind (prints_projectCheckout hs) fun checkout hcheckout => ?_
  cases checkout with
  | none => exact prints_throw _
  | some snapshot => exact prints_pure (h snapshot (hcheckout snapshot rfl))

theorem prints_metadata (hs : ∀ text ∈ s.readings, Tidy text) (key : Bytes) :
    Prints (metadata s key) Tidy := by
  obtain ⟨hid, hname, hlocale⟩ := tidy_lang hs
  refine prints_ite (prints_throw _) ?_
  refine prints_ite (prints_pure (tidy_documentText _)) ?_
  refine prints_ite (prints_pure (tidy_dateText _)) (prints_ite (prints_pure (tidy_yearText _)) ?_)
  refine prints_ite (prints_languageField _ hid) ?_
  refine prints_ite (prints_languageField _ hlocale) ?_
  refine prints_ite (prints_languageField _ hname) ?_
  refine prints_ite (prints_checkoutField hs fun _ h => h.1) ?_
  refine prints_ite (prints_checkoutField hs fun _ h => h.2.1) ?_
  refine prints_ite (prints_checkoutField hs fun _ h => h.2.2) ?_
  refine prints_ite (prints_checkoutField hs fun _ _ => tidy_documentText _) ?_
  refine Prints.bind (Q := fun answer => ∀ text, (answer : Except Fault Bytes) = .ok text → Tidy text)
    (prints_ask (fun _ => rfl) fun answer htidy text hanswer => ?_)
    fun answer hanswer => prints_require hanswer
  rw [hanswer] at htidy
  exact htidy text (List.mem_singleton.2 rfl)

end Directives

end Bindery.Expansion
