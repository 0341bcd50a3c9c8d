import Bindery.Proofs.Repository.Sharing

/-!
# Requests one after the other

A cache that answers requests one after the other fetches for the first request of each key and answers
all later ones with what that has given. So every answer comes from a fetch, and every fetch is one that a
request has asked for.
-/

namespace Bindery.Repository.Cache

/-- A cache after requests for mnemonics in languages, one after the other. -/
def ask (fetch : Fetcher) (c : Cache) (requests : List (Bytes × Bytes)) : Cache :=
  requests.foldl (fun c r => (c.get fetch r.1 r.2).2) c

variable {fetch : Fetcher} {c : Cache} {mnemonic lang url : Bytes}

/-! ## One request -/

theorem get_of_shared (fetch : Fetcher) {ref : Reference} {slot : Slot} {outcome : Except Fault Snapshot}
    (h : c.reference? mnemonic = some ref)
    (hslot : c.slots.lookup (slotKey mnemonic (ref.urlFor lang)) = some slot)
    (hknown : slot.outcome = some outcome) :
    c.get fetch mnemonic lang = (outcome, c.share slot.mnemonic outcome) := by
  have henter : c.enter mnemonic lang = (.ok (slotKey mnemonic (ref.urlFor lang)), c) := by
    simp only [enter, h, hslot]
  rw [get, henter]
  exact settle_of_known fetch hslot hknown

theorem get_of_fresh (fetch : Fetcher) {ref : Reference} (h : c.reference? mnemonic = some ref)
    (hslot : c.slots.lookup (slotKey mnemonic (ref.urlFor lang)) = none) :
    ∃ slots metrics, c.get fetch mnemonic lang = (fetched fetch mnemonic (ref.urlFor lang),
        { c with slots, metrics, fetches := c.fetches ++ [(mnemonic, ref.urlFor lang)] }) ∧
      slots.lookup (slotKey mnemonic (ref.urlFor lang)) = some
        { mnemonic, url := ref.urlFor lang, outcome := some (fetched fetch mnemonic (ref.urlFor lang)) } ∧
      ∀ k ≠ slotKey mnemonic (ref.urlFor lang), slots.lookup k = c.slots.lookup k := by
  obtain ⟨slots, henter, hnew, hothers⟩ := enter_of_reference h lang
  rw [hslot, Option.getD_none] at hnew
  have hget : c.get fetch mnemonic lang =
      record { c with slots } (slotKey mnemonic (ref.urlFor lang)) mnemonic (ref.urlFor lang)
        (fetch mnemonic (ref.urlFor lang)) := by
    rw [get, henter]
    exact settle_of_open fetch (c := { c with slots }) hnew rfl
  refine ⟨_, _, hget, ?_, fun k hk => ?_⟩
  · rw [lookup_map_outcome, hnew]
    simp [fetched]
  · rw [lookup_map_outcome, hothers k hk]
    simp [hk]

/-- A request is served from an address: it is answered with what a fetch under the key of that address
has given, and it fetches itself, from that address, exactly if no fetch before was under the key. Where no
mnemonic has a NUL byte, nothing but that address is under the key. -/
structure Serves (fetch : Fetcher) (c : Cache) (mnemonic lang url : Bytes) : Prop where
  answer : ∃ p ∈ (c.get fetch mnemonic lang).2.fetches,
    slotKey p.1 p.2 = slotKey mnemonic url ∧ (c.get fetch mnemonic lang).1 = fetched fetch p.1 p.2
  fetches : (c.get fetch mnemonic lang).2.fetches =
    if ∃ p ∈ c.fetches, slotKey p.1 p.2 = slotKey mnemonic url then c.fetches
    else c.fetches ++ [(mnemonic, url)]
  answer_eq : (∀ ref ∈ c.refs, 0 ∉ ref.mnemonic) →
    (c.get fetch mnemonic lang).1 = fetched fetch mnemonic url

/-! ## A run of requests -/

/-- The books of a cache that has answered requests. -/
structure Settled (fetch : Fetcher) (refs : List Reference) (requests : List (Bytes × Bytes))
    (c : Cache) : Prop where
  refs_eq : c.refs = refs
  /-- Every slot holds what its fetch has given. -/
  slots : ∀ key slot, c.slots.lookup key = some slot →
    key = slotKey slot.mnemonic slot.url ∧ (slot.mnemonic, slot.url) ∈ c.fetches ∧
      slot.outcome = some (fetched fetch slot.mnemonic slot.url)
  /-- Every fetch was asked for, and its slot is there. -/
  fetches : ∀ p ∈ c.fetches, (∃ r ∈ requests, pairOf refs r.1 r.2 = some p) ∧
    ∃ slot, c.slots.lookup (slotKey p.1 p.2) = some slot

namespace Settled

variable {refs : List Reference} {requests : List (Bytes × Bytes)}

theorem start (fetch : Fetcher) (refs : List Reference) (requests : List (Bytes × Bytes)) :
    Settled fetch refs requests { refs } where
  refs_eq := rfl
  slots _ _ h := nomatch h
  fetches _ h := nomatch h

theorem pairOf_eq (h : Settled fetch refs requests c) (mnemonic lang : Bytes) :
    pairOf refs mnemonic lang = (c.reference? mnemonic).map fun ref => (mnemonic, ref.urlFor lang) := by
  rw [pairOf, reference?_congr (c := { refs }) (d := c) h.refs_eq.symm]

/-- **Where an answer comes from.** A declared request is served from the address of its reference. -/
theorem serves (h : Settled fetch refs requests c)
    (hpair : pairOf refs mnemonic lang = some (mnemonic, url)) : c.Serves fetch mnemonic lang url := by
  have hreference := hpair
  rw [h.pairOf_eq] at hreference
  obtain ⟨ref, href, heq⟩ := Option.map_eq_some_iff.1 hreference
  obtain rfl : ref.urlFor lang = url := congrArg Prod.snd heq
  cases hslot : c.slots.lookup (slotKey mnemonic (ref.urlFor lang)) with
  | some slot =>
    obtain ⟨hkey, hmem, hknown⟩ := h.slots _ _ hslot
    have hget := get_of_shared fetch href hslot hknown
    have hfetches : (c.share slot.mnemonic (fetched fetch slot.mnemonic slot.url)).fetches = c.fetches := by
      cases fetched fetch slot.mnemonic slot.url <;> rfl
    refine ⟨⟨(slot.mnemonic, slot.url), ?_, hkey.symm, congrArg Prod.fst hget⟩, ?_, fun hnul => ?_⟩
    · rwa [hget, hfetches]
    · rw [hget, hfetches, if_pos ⟨_, hmem, hkey.symm⟩]
    · obtain ⟨r, -, hslotPair⟩ := (h.fetches _ hmem).1
      obtain ⟨hmnemonic, hurl⟩ :=
        Prod.mk.inj (pairOf_inj (h.refs_eq ▸ hnul) hslotPair hpair hkey.symm)
      rw [hget, hmnemonic, hurl]
  | none =>
    obtain ⟨slots, metrics, hget, -, -⟩ := get_of_fresh fetch href hslot
    have hfirst : ¬∃ p ∈ c.fetches, slotKey p.1 p.2 = slotKey mnemonic (ref.urlFor lang) := by
      rintro ⟨p, hp, hkey⟩
      obtain ⟨slot, hfound⟩ := (h.fetches p hp).2
      rw [hkey, hslot] at hfound
      cases hfound
    have hanswer := congrArg Prod.fst hget
    refine ⟨⟨(mnemonic, ref.urlFor lang), ?_, rfl, hanswer⟩, ?_, fun _ => hanswer⟩
    · rw [hget]
      exact List.mem_append_right _ (List.mem_singleton_self _)
    · rw [hget, if_neg hfirst]

theorem get_of_no_pair (h : Settled fetch refs requests c) (hpair : pairOf refs mnemonic lang = none) :
    c.get fetch mnemonic lang = (.error (undeclared mnemonic), c) := by
  rw [h.pairOf_eq, Option.map_eq_none_iff] at hpair
  exact get_of_undeclared fetch hpair lang

theorem get (h : Settled fetch refs requests c) (hmem : (mnemonic, lang) ∈ requests) :
    Settled fetch refs requests (c.get fetch mnemonic lang).2 := by
  cases href : c.reference? mnemonic with
  | none =>
    rw [get_of_undeclared fetch href]
    exact h
  | some ref =>
    cases hslot : c.slots.lookup (slotKey mnemonic (ref.urlFor lang)) with
    | some slot =>
      obtain ⟨-, -, hknown⟩ := h.slots _ _ hslot
      rw [get_of_shared fetch href hslot hknown]
      cases fetched fetch slot.mnemonic slot.url <;> exact ⟨h.refs_eq, h.slots, h.fetches⟩
    | none =>
      obtain ⟨slots, metrics, hget, hnew, hothers⟩ := get_of_fresh fetch href hslot
      have hpair : pairOf refs mnemonic lang = some (mnemonic, ref.urlFor lang) := by
        rw [h.pairOf_eq, href, Option.map_some]
      rw [hget]
      refine ⟨h.refs_eq, fun key slot hfound => ?_, fun p hp => ?_⟩
      · by_cases hkey : key = slotKey mnemonic (ref.urlFor lang)
        · subst hkey
          obtain rfl := Option.some.inj (hnew.symm.trans hfound)
          exact ⟨rfl, List.mem_append_right _ (List.mem_singleton_self _), rfl⟩
        · obtain ⟨heq, hfetched, hknown⟩ := h.slots key slot ((hothers key hkey).symm.trans hfound)
          exact ⟨heq, List.mem_append_left _ hfetched, hknown⟩
      · rcases List.mem_append.1 hp with hp | hp
        · obtain ⟨hasked, slot, hfound⟩ := h.fetches p hp
          have hkey : slotKey p.1 p.2 ≠ slotKey mnemonic (ref.urlFor lang) := by
            intro hkey
            rw [hkey, hslot] at hfound
            cases hfound
          exact ⟨hasked, slot, (hothers _ hkey).trans hfound⟩
        · obtain rfl := List.mem_singleton.1 hp
          exact ⟨⟨_, hmem, hpair⟩, _, hnew⟩

theorem ask (h : Settled fetch refs requests c) {more : List (Bytes × Bytes)} (hsub : more ⊆ requests) :
    Settled fetch refs requests (c.ask fetch more) := by
  induction more generalizing c with
  | nil => exact h
  | cons r more ih =>
    obtain ⟨hr, hmore⟩ := List.cons_subset.1 hsub
    exact ih (h.get hr) hmore

end Settled

/-- A new cache has its books in order after any requests. -/
theorem settled_ask (fetch : Fetcher) (refs : List Reference) (requests : List (Bytes × Bytes)) :
    Settled fetch refs requests (ask fetch { refs } requests) :=
  (Settled.start fetch refs requests).ask (List.Subset.refl _)

end Bindery.Repository.Cache
