import Mathlib
import Bindery.Proofs.Repository.Cache

/-!
# Calls that share a cache

In a concurrent build many calls ask the cache at once. A call first enters, under the lock of the cache:
it finds or makes the slot of its mnemonic and address. Then, whenever it is scheduled, it either fetches,
if the slot is open and nobody else fetches for it, or it shares the outcome. `Pool.Step` is one such move
of one call, put together from the parts of `Cache.get`; a call that is not interrupted does what `get`
does (`Consistent.steps_get`).

`Consistent` ties calls, slots, fetches and metrics together. The slots are the centre: what a call has
come to is in its slot (`Call.Stands`), and the outcome of a slot is that of the one fetch for its
mnemonic and address (`Slot.Stands`). Every step keeps a pool consistent (`Consistent.step`). That a slot
has one mnemonic and one address rests on keys that tell them apart, so mnemonics hold no NUL byte.
-/

namespace Bindery.Repository

open Cache (fetchFault undeclared)

/-! ## Calls -/

/-- How far a call has come. -/
inductive Progress where
  | asked
  | waiting (url : Bytes)
  | fetching (url : Bytes)
  | answered (result : Except Fault Snapshot)

/-- A call for the repository with a mnemonic, in a language. -/
structure Call where
  mnemonic : Bytes
  lang : Bytes
  progress : Progress

/-- The mnemonic and the address that a request leads to, if the mnemonic is declared. -/
def pairOf (refs : List Reference) (mnemonic lang : Bytes) : Option (Bytes × Bytes) :=
  (Cache.reference? { refs } mnemonic).map fun ref => (mnemonic, ref.urlFor lang)

namespace Call

/-- What a call fetches at the moment. -/
def fetching? (call : Call) : Option (Bytes × Bytes) :=
  match call.progress with
  | .fetching url => some (call.mnemonic, url)
  | _ => none

def isServed (call : Call) : Bool :=
  match call.progress with
  | .answered (.ok _) => true
  | _ => false

/-- How many moves a call can still make. -/
def remaining (call : Call) : Nat :=
  match call.progress with
  | .asked => 3
  | .waiting _ => 2
  | .fetching _ => 1
  | .answered _ => 0

end Call

/-- Calls and the cache that they share, with the fetches that were begun, in order, and what came of
those that have ended. -/
structure Pool where
  cache : Cache
  calls : List Call
  begun : List (Bytes × Bytes) := []
  outcomes : List ((Bytes × Bytes) × Except Fault Snapshot) := []

namespace Pool

/-- Requests for mnemonics in languages, before the first is looked at. -/
def start (refs : List Reference) (requests : List (Bytes × Bytes)) : Pool where
  cache := { refs }
  calls := requests.map fun r => ⟨r.1, r.2, .asked⟩

def hits (s : Pool) : Nat := s.cache.metrics.countP fun
  | .cacheHit _ => true
  | _ => false

def successes (s : Pool) : Nat := s.outcomes.countP (·.2.toBool)

def served (s : Pool) : Nat := s.calls.countP Call.isServed

/-- One call moves. Whatever is fetched may succeed or fail. -/
inductive Step : Pool → Pool → Prop
  | refuse {s : Pool} {before after : List Call} {mnemonic lang : Bytes} {fault : Fault} {cache : Cache}
      (hcalls : s.calls = before ++ ⟨mnemonic, lang, .asked⟩ :: after)
      (henter : s.cache.enter mnemonic lang = (.error fault, cache)) :
      Step s { s with
        cache, calls := before ++ ⟨mnemonic, lang, .answered (.error fault)⟩ :: after }
  | enter {s : Pool} {before after : List Call} {mnemonic lang : Bytes} {ref : Reference}
      (hcalls : s.calls = before ++ ⟨mnemonic, lang, .asked⟩ :: after)
      (href : s.cache.reference? mnemonic = some ref) :
      Step s { s with
        cache := (s.cache.enter mnemonic lang).2
        calls := before ++ ⟨mnemonic, lang, .waiting (ref.urlFor lang)⟩ :: after }
  | fetch {s : Pool} {before after : List Call} {mnemonic lang url : Bytes} {slot : Slot}
      (hcalls : s.calls = before ++ ⟨mnemonic, lang, .waiting url⟩ :: after)
      (hslot : s.cache.slots.lookup (slotKey mnemonic url) = some slot) (hopen : slot.outcome = none)
      (hfree : ∀ p ∈ s.calls.filterMap Call.fetching?, slotKey p.1 p.2 ≠ slotKey mnemonic url) :
      Step s { s with
        calls := before ++ ⟨mnemonic, lang, .fetching url⟩ :: after
        begun := s.begun ++ [(mnemonic, url)] }
  | finish {s : Pool} {before after : List Call} {mnemonic lang url : Bytes}
      (hcalls : s.calls = before ++ ⟨mnemonic, lang, .fetching url⟩ :: after)
      (fetched : Except Fault Snapshot) :
      Step s { s with
        cache := (s.cache.record (slotKey mnemonic url) mnemonic url fetched).2
        calls := before ++
          ⟨mnemonic, lang, .answered (s.cache.record (slotKey mnemonic url) mnemonic url fetched).1⟩ ::
            after
        outcomes := s.outcomes ++ [((mnemonic, url), fetched)] }
  | share {s : Pool} {before after : List Call} {mnemonic lang url : Bytes} {slot : Slot}
      {outcome : Except Fault Snapshot}
      (hcalls : s.calls = before ++ ⟨mnemonic, lang, .waiting url⟩ :: after)
      (hslot : s.cache.slots.lookup (slotKey mnemonic url) = some slot)
      (hknown : slot.outcome = some outcome) :
      Step s { s with
        cache := s.cache.share mnemonic outcome
        calls := before ++ ⟨mnemonic, lang, .answered outcome⟩ :: after }

/-- Any number of moves, of whichever calls. -/
abbrev Steps : Pool → Pool → Prop := Relation.ReflTransGen Step

end Pool

/-! ## Keys -/

section Keys

variable {refs : List Reference} {mnemonic mnemonic' lang lang' : Bytes} {p q : Bytes × Bytes}

theorem pairOf_inj (hnul : ∀ ref ∈ refs, 0 ∉ ref.mnemonic)
    (hp : pairOf refs mnemonic lang = some p) (hq : pairOf refs mnemonic' lang' = some q)
    (h : slotKey p.1 p.2 = slotKey q.1 q.2) : p = q := by
  obtain ⟨ref, href, rfl⟩ := Option.map_eq_some_iff.1 hp
  obtain ⟨ref', href', rfl⟩ := Option.map_eq_some_iff.1 hq
  have hsame := Cache.slotKey_inj (Cache.no_nul_of_reference? hnul href)
    (Cache.no_nul_of_reference? hnul href') h
  exact Prod.ext hsame.1 hsame.2

end Keys

/-! ## Consistency -/

/-- What a call has come to is in the slots. -/
inductive Call.Stands (refs : List Reference) (slots : List (Bytes × Slot)) : Call → Prop
  | asked {mnemonic lang : Bytes} : Stands refs slots ⟨mnemonic, lang, .asked⟩
  | refused {mnemonic lang : Bytes} (hpair : pairOf refs mnemonic lang = none) :
      Stands refs slots ⟨mnemonic, lang, .answered (.error (undeclared mnemonic))⟩
  | waiting {mnemonic lang url : Bytes} {slot : Slot}
      (hpair : pairOf refs mnemonic lang = some (mnemonic, url))
      (hslot : slots.lookup (slotKey mnemonic url) = some slot) :
      Stands refs slots ⟨mnemonic, lang, .waiting url⟩
  | fetching {mnemonic lang url : Bytes} {slot : Slot}
      (hpair : pairOf refs mnemonic lang = some (mnemonic, url))
      (hslot : slots.lookup (slotKey mnemonic url) = some slot) (hopen : slot.outcome = none) :
      Stands refs slots ⟨mnemonic, lang, .fetching url⟩
  | answered {mnemonic lang url : Bytes} {slot : Slot} {result : Except Fault Snapshot}
      (hpair : pairOf refs mnemonic lang = some (mnemonic, url))
      (hslot : slots.lookup (slotKey mnemonic url) = some slot)
      (hknown : slot.outcome = some result) :
      Stands refs slots ⟨mnemonic, lang, .answered result⟩

/-- A slot is where its key says, for a request that was made, and its outcome is that of the fetch for
its mnemonic and address. -/
structure Slot.Stands (refs : List Reference) (requests : List (Bytes × Bytes))
    (outcomes : List ((Bytes × Bytes) × Except Fault Snapshot)) (key : Bytes) (slot : Slot) : Prop where
  key_eq : key = slotKey slot.mnemonic slot.url
  asked : ∃ r ∈ requests, pairOf refs r.1 r.2 = some (slot.mnemonic, slot.url)
  outcome_eq : slot.outcome = (outcomes.lookup (slot.mnemonic, slot.url)).map
    (Except.mapError (fetchFault slot.mnemonic slot.url))

/-- The books of a pool of requests agree. -/
structure Pool.Consistent (refs : List Reference) (requests : List (Bytes × Bytes)) (s : Pool) :
    Prop where
  refs_eq : s.cache.refs = refs
  requests_eq : s.calls.map (fun call => (call.mnemonic, call.lang)) = requests
  calls : ∀ call ∈ s.calls, call.Stands refs s.cache.slots
  slots : ∀ key slot, s.cache.slots.lookup key = some slot →
    slot.Stands refs requests s.outcomes key
  /-- A fetch that was begun has ended, or a call is at it. -/
  begun : s.begun.Perm (s.outcomes.map (·.1) ++ s.calls.filterMap Call.fetching?)
  nodup : s.begun.Nodup
  origin : ∀ p ∈ s.begun, (∃ r ∈ requests, pairOf refs r.1 r.2 = some p) ∧
    ∃ slot, s.cache.slots.lookup (slotKey p.1 p.2) = some slot
  hits : s.hits + s.successes = s.served

/-! ## What a step keeps -/

section Steps

variable {refs : List Reference} {requests : List (Bytes × Bytes)} {slots slots' : List (Bytes × Slot)}
  {call : Call}

theorem Call.Stands.mono (h : call.Stands refs slots)
    (hkeep : ∀ k slot, slots.lookup k = some slot → slots'.lookup k = some slot) :
    call.Stands refs slots' := by
  cases h with
  | asked => exact .asked
  | refused hpair => exact .refused hpair
  | waiting hpair hslot => exact .waiting hpair (hkeep _ _ hslot)
  | fetching hpair hslot hopen => exact .fetching hpair (hkeep _ _ hslot) hopen
  | answered hpair hslot hknown => exact .answered hpair (hkeep _ _ hslot) hknown

theorem Cache.lookup_record (c : Cache) (key mnemonic url : Bytes) (fetched : Except Fault Snapshot)
    (k : Bytes) : (c.record key mnemonic url fetched).2.slots.lookup k =
      (c.slots.lookup k).map fun s =>
        if k = key then { s with outcome := some (c.record key mnemonic url fetched).1 } else s :=
  lookup_map_outcome _ _ _ _

/-- A call stands when the outcome of an open slot is recorded, unless it fetches for that slot. -/
theorem Call.Stands.record {c : Cache} (h : call.Stands refs c.slots) {key : Bytes} {slot : Slot}
    (hslot : c.slots.lookup key = some slot) (hopen : slot.outcome = none)
    (hother : ∀ p, call.fetching? = some p → slotKey p.1 p.2 ≠ key) (mnemonic url : Bytes)
    (fetched : Except Fault Snapshot) :
    call.Stands refs (c.record key mnemonic url fetched).2.slots := by
  cases h with
  | asked => exact .asked
  | refused hpair => exact .refused hpair
  | @waiting m lang url' slot' hpair hslot' =>
    have hlookup := Cache.lookup_record c key mnemonic url fetched (slotKey m url')
    rw [hslot', Option.map_some] at hlookup
    exact .waiting hpair hlookup
  | fetching hpair hslot' hopen' =>
    refine .fetching hpair ?_ hopen'
    rw [Cache.lookup_record, hslot', Option.map_some, if_neg (hother _ rfl)]
  | @answered m lang url' slot' result hpair hslot' hknown =>
    refine .answered hpair ?_ hknown
    have hne : slotKey m url' ≠ key := by
      intro heq
      rw [heq, hslot] at hslot'
      rw [← Option.some.inj hslot', hopen] at hknown
      cases hknown
    rw [Cache.lookup_record, hslot', Option.map_some, if_neg hne]

theorem Call.Stands.pair_of_fetching (h : call.Stands refs slots) {p : Bytes × Bytes}
    (hp : call.fetching? = some p) : pairOf refs call.mnemonic call.lang = some p := by
  cases h with
  | fetching hpair => exact hpair.trans hp
  | asked => cases hp
  | refused => cases hp
  | waiting => cases hp
  | answered => cases hp

namespace Pool

variable {s s' : Pool} {before after : List Call} {moved moved' : Call}

theorem forall_replace {P Q : Call → Prop} (h : ∀ call ∈ before ++ moved :: after, P call)
    (hothers : ∀ call ∈ before ++ after, P call → Q call) (hmoved : Q moved') :
    ∀ call ∈ before ++ moved' :: after, Q call := by
  intro call hcall
  rcases List.mem_append.1 hcall with hbefore | hcall
  · exact hothers call (List.mem_append_left _ hbefore) (h call (List.mem_append_left _ hbefore))
  · rcases List.mem_cons.1 hcall with rfl | hafter
    · exact hmoved
    · exact hothers call (List.mem_append_right _ hafter)
        (h call (List.mem_append_right _ (List.mem_cons_of_mem _ hafter)))

theorem filterMap_fetching? (before after : List Call) (call : Call) :
    (before ++ call :: after).filterMap Call.fetching? =
      before.filterMap Call.fetching? ++
        (call.fetching?.toList ++ after.filterMap Call.fetching?) := by
  rw [List.filterMap_append, List.filterMap_cons]
  cases call.fetching? <;> rfl

theorem countP_isServed (before after : List Call) (call : Call) :
    (before ++ call :: after).countP Call.isServed =
      before.countP Call.isServed + after.countP Call.isServed + call.isServed.toNat := by
  rw [List.countP_append, List.countP_cons, Nat.add_assoc]
  cases call.isServed <;> rfl

namespace Consistent

variable {mnemonic lang url : Bytes}

theorem slot_eq (h : Consistent refs requests s) (hnul : ∀ ref ∈ refs, 0 ∉ ref.mnemonic) {slot : Slot}
    {p : Bytes × Bytes} (hp : pairOf refs mnemonic lang = some p)
    (hslot : s.cache.slots.lookup (slotKey p.1 p.2) = some slot) : p = (slot.mnemonic, slot.url) := by
  obtain ⟨hkey, ⟨r, -, hr⟩, -⟩ := h.slots _ slot hslot
  exact pairOf_inj hnul hp hr hkey

theorem request_mem (h : Consistent refs requests s) {call : Call} (hcall : call ∈ s.calls) :
    (call.mnemonic, call.lang) ∈ requests := by
  rw [← h.requests_eq]
  exact List.mem_map_of_mem hcall

theorem pair_of_waiting (h : Consistent refs requests s)
    (hcalls : s.calls = before ++ ⟨mnemonic, lang, .waiting url⟩ :: after) :
    pairOf refs mnemonic lang = some (mnemonic, url) := by
  cases h.calls ⟨mnemonic, lang, .waiting url⟩ (by simp [hcalls]) with
  | waiting hpair => exact hpair

/-- An open slot has had no fetch that ended. -/
theorem lookup_of_open (h : Consistent refs requests s) (hnul : ∀ ref ∈ refs, 0 ∉ ref.mnemonic)
    {slot : Slot} {p : Bytes × Bytes} (hp : pairOf refs mnemonic lang = some p)
    (hslot : s.cache.slots.lookup (slotKey p.1 p.2) = some slot) (hopen : slot.outcome = none) :
    s.outcomes.lookup p = none := by
  have houtcome := (h.slots _ slot hslot).outcome_eq
  rw [← h.slot_eq hnul hp hslot, hopen] at houtcome
  exact Option.map_eq_none_iff.1 houtcome.symm

theorem mem_begun (h : Consistent refs requests s) {p : Bytes × Bytes} {fetched : Except Fault Snapshot}
    (hp : s.outcomes.lookup p = some fetched) : p ∈ s.begun := by
  obtain ⟨before, after, houtcomes, -⟩ := List.lookup_eq_some_iff.1 hp
  rw [h.begun.mem_iff, houtcomes]
  simp

theorem fetching?_ne (h : Consistent refs requests s)
    (hcalls : s.calls = before ++ ⟨mnemonic, lang, .fetching url⟩ :: after) :
    ∀ call ∈ before ++ after, call.fetching? ≠ some (mnemonic, url) := by
  intro call hcall hfetching
  have hnodup := (h.begun.nodup_iff.1 h.nodup).of_append_right
  rw [hcalls, filterMap_fetching?, Call.fetching?, Option.toList_some, List.singleton_append,
    List.nodup_middle] at hnodup
  have hmem : (mnemonic, url) ∈ (before ++ after).filterMap Call.fetching? :=
    List.mem_filterMap.2 ⟨call, hcall, hfetching⟩
  rw [List.filterMap_append] at hmem
  exact (List.nodup_cons.1 hnodup).1 hmem

/-- One call moves and the others stay: what is left to show is what has changed. -/
theorem replace {t : Pool} (h : Consistent refs requests s)
    (hs : s.calls = before ++ moved :: after) (ht : t.calls = before ++ moved' :: after)
    (hsame : (moved'.mnemonic, moved'.lang) = (moved.mnemonic, moved.lang))
    (hrefs : t.cache.refs = s.cache.refs)
    (hothers : ∀ call ∈ before ++ after, call.Stands refs s.cache.slots →
      call.Stands refs t.cache.slots)
    (hmoved : moved'.Stands refs t.cache.slots)
    (hslots : ∀ key slot, t.cache.slots.lookup key = some slot →
      slot.Stands refs requests t.outcomes key)
    (hcount : ∀ p, t.begun.count p + (s.outcomes.map (·.1)).count p + moved.fetching?.toList.count p =
      s.begun.count p + (t.outcomes.map (·.1)).count p + moved'.fetching?.toList.count p)
    (hnodup : t.begun.Nodup)
    (horigin : ∀ p ∈ t.begun, (∃ r ∈ requests, pairOf refs r.1 r.2 = some p) ∧
      ∃ slot, t.cache.slots.lookup (slotKey p.1 p.2) = some slot)
    (hhits : t.hits + t.successes + moved.isServed.toNat =
      s.hits + s.successes + moved'.isServed.toNat) : Consistent refs requests t := by
  refine ⟨hrefs.trans h.refs_eq, ?_, ?_, hslots, ?_, hnodup, horigin, ?_⟩
  · have hrequests := h.requests_eq
    rw [hs] at hrequests
    rw [ht, ← hrequests]
    simpa using hsame
  · rw [ht]
    exact forall_replace (hs ▸ h.calls) hothers hmoved
  · rw [List.perm_iff_count]
    intro p
    have hbegun := List.perm_iff_count.1 h.begun p
    have hchange := hcount p
    rw [hs, filterMap_fetching?] at hbegun
    rw [ht, filterMap_fetching?]
    simp only [List.count_append] at hbegun ⊢
    omega
  · have hserved := h.hits
    unfold served at hserved ⊢
    rw [hs, countP_isServed] at hserved
    rw [ht, countP_isServed]
    omega

theorem refuse (h : Consistent refs requests s) {fault : Fault} {cache : Cache}
    (hcalls : s.calls = before ++ ⟨mnemonic, lang, .asked⟩ :: after)
    (henter : s.cache.enter mnemonic lang = (.error fault, cache)) :
    Consistent refs requests { s with
      cache, calls := before ++ ⟨mnemonic, lang, .answered (.error fault)⟩ :: after } := by
  cases href : s.cache.reference? mnemonic with
  | some ref =>
    obtain ⟨slots, hok, -⟩ := Cache.enter_of_reference href lang
    rw [hok] at henter
    cases henter
  | none =>
    rw [Cache.enter_of_undeclared href] at henter
    obtain ⟨hfault, rfl⟩ := Prod.mk.inj henter
    obtain rfl := Except.error.inj hfault
    have hnone : pairOf refs mnemonic lang = none := by
      rw [pairOf, ← h.refs_eq, Option.map_eq_none_iff]
      exact href
    exact h.replace hcalls rfl rfl rfl (fun _ _ hstands => hstands) (.refused hnone) h.slots
      (fun _ => rfl) h.nodup h.origin rfl

theorem enter (h : Consistent refs requests s) {ref : Reference}
    (hcalls : s.calls = before ++ ⟨mnemonic, lang, .asked⟩ :: after)
    (href : s.cache.reference? mnemonic = some ref) :
    Consistent refs requests { s with
      cache := (s.cache.enter mnemonic lang).2
      calls := before ++ ⟨mnemonic, lang, .waiting (ref.urlFor lang)⟩ :: after } := by
  have hpair : pairOf refs mnemonic lang = some (mnemonic, ref.urlFor lang) := by
    rw [pairOf, ← h.refs_eq, Option.map_eq_some_iff]
    exact ⟨ref, href, rfl⟩
  have hrequest : (mnemonic, lang) ∈ requests :=
    h.request_mem (show ⟨mnemonic, lang, .asked⟩ ∈ s.calls by simp [hcalls])
  obtain ⟨slots, henter, hslot, hothers⟩ := Cache.enter_of_reference href lang
  rw [henter]
  have hkeep : ∀ k slot, s.cache.slots.lookup k = some slot → slots.lookup k = some slot := by
    intro k slot hk
    by_cases hkey : k = slotKey mnemonic (ref.urlFor lang)
    · rw [hkey] at hk
      rw [hkey, hslot, hk, Option.getD_some]
    · rw [hothers k hkey, hk]
  have hnew : s.cache.slots.lookup (slotKey mnemonic (ref.urlFor lang)) = none →
      s.outcomes.lookup (mnemonic, ref.urlFor lang) = none := by
    intro hnone
    by_contra hsome
    obtain ⟨fetched, hfetched⟩ := Option.ne_none_iff_exists'.1 hsome
    obtain ⟨-, slot, hslot⟩ := h.origin _ (h.mem_begun hfetched)
    rw [hnone] at hslot
    cases hslot
  refine h.replace hcalls rfl rfl rfl (fun _ _ hstands => hstands.mono hkeep) (.waiting hpair hslot) ?_
    (fun _ => rfl) h.nodup ?_ rfl
  · intro key slot hkey
    by_cases hk : key = slotKey mnemonic (ref.urlFor lang)
    · subst hk
      rw [hslot] at hkey
      cases hbefore : s.cache.slots.lookup (slotKey mnemonic (ref.urlFor lang)) with
      | some old =>
        rw [hbefore, Option.getD_some] at hkey
        obtain rfl := Option.some.inj hkey
        exact h.slots _ _ hbefore
      | none =>
        rw [hbefore, Option.getD_none] at hkey
        obtain rfl := Option.some.inj hkey
        exact ⟨rfl, ⟨_, hrequest, hpair⟩, by rw [hnew hbefore]; rfl⟩
    · exact h.slots key slot ((hothers key hk).symm.trans hkey)
  · intro p hp
    obtain ⟨hasked, slot, hslot⟩ := h.origin p hp
    exact ⟨hasked, slot, hkeep _ _ hslot⟩

theorem fetch (h : Consistent refs requests s) (hnul : ∀ ref ∈ refs, 0 ∉ ref.mnemonic) {slot : Slot}
    (hcalls : s.calls = before ++ ⟨mnemonic, lang, .waiting url⟩ :: after)
    (hslot : s.cache.slots.lookup (slotKey mnemonic url) = some slot) (hopen : slot.outcome = none)
    (hfree : ∀ p ∈ s.calls.filterMap Call.fetching?, slotKey p.1 p.2 ≠ slotKey mnemonic url) :
    Consistent refs requests { s with
      calls := before ++ ⟨mnemonic, lang, .fetching url⟩ :: after
      begun := s.begun ++ [(mnemonic, url)] } := by
  have hpair := h.pair_of_waiting hcalls
  have hrequest : (mnemonic, lang) ∈ requests :=
    h.request_mem (show ⟨mnemonic, lang, .waiting url⟩ ∈ s.calls by simp [hcalls])
  -- Neither has a fetch for this pair ended, nor is a call at one.
  have hfresh : (mnemonic, url) ∉ s.begun := by
    intro hmem
    rcases List.mem_append.1 (h.begun.mem_iff.1 hmem) with hended | hrunning
    · obtain ⟨⟨p, fetched⟩, hmem, rfl⟩ := List.mem_map.1 hended
      have hnone := h.lookup_of_open hnul hpair hslot hopen
      rw [List.lookup_eq_none_iff] at hnone
      simpa using hnone _ hmem
    · exact hfree _ hrunning rfl
  refine h.replace hcalls rfl rfl rfl (fun _ _ hstands => hstands) (.fetching hpair hslot hopen)
    h.slots (fun p => ?_) ?_ ?_ rfl
  · simp only [Call.fetching?, Option.toList_none, Option.toList_some, List.count_append,
      List.count_nil]
    omega
  · rw [← List.concat_eq_append]
    exact h.nodup.concat hfresh
  · refine List.forall_mem_append.2 ⟨h.origin, List.forall_mem_singleton.2 ?_⟩
    exact ⟨⟨_, hrequest, hpair⟩, slot, hslot⟩

/-- Slots stand when the fetch for one of them has ended: it has the outcome, and the others are for
something else. -/
theorem slots_record (h : Consistent refs requests s) {slot : Slot}
    (hslot : s.cache.slots.lookup (slotKey mnemonic url) = some slot)
    (hmine : (mnemonic, url) = (slot.mnemonic, slot.url))
    (hnone : s.outcomes.lookup (mnemonic, url) = none) (fetched : Except Fault Snapshot) :
    ∀ key slot', (s.cache.record (slotKey mnemonic url) mnemonic url fetched).2.slots.lookup key =
        some slot' →
      slot'.Stands refs requests (s.outcomes ++ [((mnemonic, url), fetched)]) key := by
  intro key slot' hkey
  rw [Cache.lookup_record] at hkey
  obtain ⟨old, hold, heq⟩ := Option.map_eq_some_iff.1 hkey
  obtain ⟨hkey_eq, hasked, houtcome⟩ := h.slots key old hold
  by_cases hk : key = slotKey mnemonic url
  · rw [if_pos hk] at heq
    rw [hk, hslot] at hold
    obtain rfl := Option.some.inj hold
    subst heq
    refine ⟨hkey_eq, hasked, ?_⟩
    rw [← hmine, List.lookup_append, hnone, Option.none_or, List.lookup_cons_self, Option.map_some]
    obtain ⟨rfl, rfl⟩ := Prod.mk.inj hmine
    rfl
  · rw [if_neg hk] at heq
    subst heq
    refine ⟨hkey_eq, hasked, ?_⟩
    have hne : (old.mnemonic, old.url) ≠ (mnemonic, url) := by
      intro hsame
      obtain ⟨hmnemonic, hurl⟩ := Prod.mk.inj hsame
      exact hk (by rw [hkey_eq, hmnemonic, hurl])
    rw [houtcome, List.lookup_append, List.lookup_cons, beq_eq_false_iff_ne.2 hne]
    simp

theorem finish (h : Consistent refs requests s) (hnul : ∀ ref ∈ refs, 0 ∉ ref.mnemonic)
    (hcalls : s.calls = before ++ ⟨mnemonic, lang, .fetching url⟩ :: after)
    (fetched : Except Fault Snapshot) :
    Consistent refs requests { s with
      cache := (s.cache.record (slotKey mnemonic url) mnemonic url fetched).2
      calls := before ++
        ⟨mnemonic, lang, .answered (s.cache.record (slotKey mnemonic url) mnemonic url fetched).1⟩ ::
          after
      outcomes := s.outcomes ++ [((mnemonic, url), fetched)] } := by
  obtain ⟨slot, hpair, hslot, hopen⟩ : ∃ slot, pairOf refs mnemonic lang = some (mnemonic, url) ∧
      s.cache.slots.lookup (slotKey mnemonic url) = some slot ∧ slot.outcome = none := by
    cases h.calls ⟨mnemonic, lang, .fetching url⟩ (by simp [hcalls]) with
    | fetching hpair hslot hopen => exact ⟨_, hpair, hslot, hopen⟩
  have hmine : (mnemonic, url) = (slot.mnemonic, slot.url) := h.slot_eq hnul hpair hslot
  have hnone : s.outcomes.lookup (mnemonic, url) = none := h.lookup_of_open hnul hpair hslot hopen
  have hother : ∀ call ∈ before ++ after, ∀ p, call.fetching? = some p →
      slotKey p.1 p.2 ≠ slotKey mnemonic url := by
    intro call hcall p hp hkey
    have hcall' : call ∈ s.calls := by
      rw [hcalls]
      exact (List.Sublist.append_left (List.sublist_cons_self _ _) before).subset hcall
    have hsame := pairOf_inj hnul ((h.calls call hcall').pair_of_fetching hp) hpair hkey
    exact h.fetching?_ne hcalls call hcall (hsame ▸ hp)
  have hrecord := Cache.lookup_record s.cache (slotKey mnemonic url) mnemonic url fetched
  have hmyslot := hrecord (slotKey mnemonic url)
  rw [hslot, Option.map_some, if_pos rfl] at hmyslot
  refine h.replace hcalls rfl rfl rfl
    (fun call hcall hstands => hstands.record hslot hopen (hother call hcall) mnemonic url fetched)
    (.answered hpair hmyslot rfl) ?_ (fun p => ?_) h.nodup ?_ ?_
  · exact h.slots_record hslot hmine hnone fetched
  · simp only [Call.fetching?, Option.toList_none, Option.toList_some, List.count_append,
      List.count_nil, List.map_append, List.map_cons, List.map_nil]
    omega
  · intro p hp
    obtain ⟨hasked, old, hold⟩ := h.origin p hp
    exact ⟨hasked, _, (hrecord _).trans (by rw [hold, Option.map_some])⟩
  · unfold Pool.hits Pool.successes
    cases fetched with
    | ok snapshot =>
      simp [Cache.record, Except.mapError, Call.isServed, Except.toBool]
      omega
    | error cause => simp [Cache.record, Except.mapError, Call.isServed, Except.toBool]

theorem share (h : Consistent refs requests s) {slot : Slot} {outcome : Except Fault Snapshot}
    (hcalls : s.calls = before ++ ⟨mnemonic, lang, .waiting url⟩ :: after)
    (hslot : s.cache.slots.lookup (slotKey mnemonic url) = some slot)
    (hknown : slot.outcome = some outcome) :
    Consistent refs requests { s with
      cache := s.cache.share mnemonic outcome
      calls := before ++ ⟨mnemonic, lang, .answered outcome⟩ :: after } := by
  have hpair := h.pair_of_waiting hcalls
  obtain ⟨hrefs, hslots⟩ := Cache.share_eq s.cache mnemonic outcome
  refine h.replace hcalls rfl rfl hrefs ?_ ?_ ?_ (fun _ => rfl) h.nodup ?_ ?_
  · rw [hslots]
    exact fun _ _ hstands => hstands
  · rw [hslots]
    exact .answered hpair hslot hknown
  · rw [hslots]
    exact h.slots
  · rw [hslots]
    exact h.origin
  · unfold Pool.hits Pool.successes
    cases outcome with
    | ok snapshot =>
      simp [Cache.share, Call.isServed]
      omega
    | error cause => simp [Cache.share, Call.isServed]

/-- **A step keeps a pool consistent.** -/
theorem step (h : Consistent refs requests s) (hnul : ∀ ref ∈ refs, 0 ∉ ref.mnemonic)
    (hstep : Step s s') : Consistent refs requests s' := by
  cases hstep with
  | refuse hcalls henter => exact h.refuse hcalls henter
  | enter hcalls href => exact h.enter hcalls href
  | fetch hcalls hslot hopen hfree => exact h.fetch hnul hcalls hslot hopen hfree
  | finish hcalls fetched => exact h.finish hnul hcalls fetched
  | share hcalls hslot hknown => exact h.share hcalls hslot hknown

theorem steps (h : Consistent refs requests s) (hnul : ∀ ref ∈ refs, 0 ∉ ref.mnemonic)
    (hsteps : Steps s s') : Consistent refs requests s' := by
  induction hsteps with
  | refl => exact h
  | tail _ hstep ih => exact ih.step hnul hstep

end Consistent

theorem consistent_start (refs : List Reference) (requests : List (Bytes × Bytes)) :
    Consistent refs requests (start refs requests) := by
  refine ⟨rfl, ?_, ?_, ?_, ?_, List.nodup_nil, ?_, ?_⟩
  · rw [start, List.map_map]
    exact List.map_id _
  · intro call hcall
    obtain ⟨r, -, rfl⟩ := List.mem_map.1 hcall
    exact .asked
  · intro key slot hslot
    cases hslot
  · have hnone : (start refs requests).calls.filterMap Call.fetching? = [] := by
      rw [List.filterMap_eq_nil_iff]
      intro call hcall
      obtain ⟨r, -, rfl⟩ := List.mem_map.1 hcall
      rfl
    rw [hnone]
    exact .nil
  · intro p hp
    cases hp
  · have hnone : (start refs requests).served = 0 := by
      rw [served, List.countP_eq_zero]
      intro call hcall
      obtain ⟨r, -, rfl⟩ := List.mem_map.1 hcall
      exact Bool.false_ne_true
    rw [hnone]
    rfl

/-! ## Every call is answered -/

/-- Every move brings the end nearer. -/
theorem Step.remaining_lt (h : Step s s') :
    (s'.calls.map Call.remaining).sum < (s.calls.map Call.remaining).sum := by
  cases h with
  | refuse hcalls henter => simp [hcalls, Call.remaining]
  | enter hcalls href => simp [hcalls, Call.remaining]
  | fetch hcalls hslot hopen hfree => simp [hcalls, Call.remaining]
  | finish hcalls fetched => simp [hcalls, Call.remaining]
  | share hcalls hslot hknown => simp [hcalls, Call.remaining]

/-- As long as a call has no answer, some call can move. -/
theorem Consistent.exists_step (h : Consistent refs requests s) {call : Call} (hcall : call ∈ s.calls)
    (hopen : ∀ result, call.progress ≠ .answered result) : ∃ s', Step s s' := by
  obtain ⟨before, after, hcalls⟩ := List.append_of_mem hcall
  cases h.calls call hcall with
  | @asked mnemonic lang =>
    cases href : s.cache.reference? mnemonic with
    | none => exact ⟨_, .refuse hcalls (Cache.enter_of_undeclared href lang)⟩
    | some ref => exact ⟨_, .enter hcalls href⟩
  | @waiting mnemonic lang url slot hpair hslot =>
    cases houtcome : slot.outcome with
    | some outcome => exact ⟨_, .share hcalls hslot houtcome⟩
    | none =>
      by_cases hfree : ∀ p ∈ s.calls.filterMap Call.fetching?, slotKey p.1 p.2 ≠ slotKey mnemonic url
      · exact ⟨_, .fetch hcalls hslot houtcome hfree⟩
      · -- Another call is at the fetch, and can end it.
        simp only [not_forall] at hfree
        obtain ⟨p, hp, -⟩ := hfree
        obtain ⟨fetcher, hfetcher, hfetching⟩ := List.mem_filterMap.1 hp
        obtain ⟨front, rest, hcalls'⟩ := List.append_of_mem hfetcher
        cases h.calls fetcher hfetcher with
        | fetching => exact ⟨_, .finish hcalls' (.error .other)⟩
        | asked => cases hfetching
        | refused => cases hfetching
        | waiting => cases hfetching
        | answered => cases hfetching
  | fetching => exact ⟨_, .finish hcalls (.error .other)⟩
  | refused => exact absurd rfl (hopen _)
  | answered => exact absurd rfl (hopen _)

/-! ## One call after the other -/

/-- **A call that is not interrupted** does what `Cache.get` does. -/
theorem Consistent.steps_get (h : Consistent refs requests s) (hnul : ∀ ref ∈ refs, 0 ∉ ref.mnemonic)
    (fetch : Fetcher) {mnemonic lang : Bytes}
    (hcalls : s.calls = before ++ ⟨mnemonic, lang, .asked⟩ :: after)
    (hidle : s.calls.filterMap Call.fetching? = []) :
    ∃ s', Steps s s' ∧ s'.cache = (s.cache.get fetch mnemonic lang).2 ∧
      s'.calls =
        before ++ ⟨mnemonic, lang, .answered (s.cache.get fetch mnemonic lang).1⟩ :: after := by
  cases href : s.cache.reference? mnemonic with
  | none =>
    have henter := Cache.enter_of_undeclared href lang
    rw [Cache.get, henter]
    exact ⟨_, .single (.refuse hcalls henter), rfl, rfl⟩
  | some ref =>
    have hentered := Step.enter hcalls href
    have hpair : pairOf refs mnemonic lang = some (mnemonic, ref.urlFor lang) := by
      rw [pairOf, ← h.refs_eq, Option.map_eq_some_iff]
      exact ⟨ref, href, rfl⟩
    have h₁ := h.step hnul hentered
    obtain ⟨slots, henter, hslot, -⟩ := Cache.enter_of_reference href lang
    rw [henter] at hentered h₁
    obtain ⟨hmnemonic, hurl⟩ := Prod.mk.inj (h₁.slot_eq hnul hpair hslot)
    generalize (s.cache.slots.lookup (slotKey mnemonic (ref.urlFor lang))).getD
      { mnemonic, url := ref.urlFor lang } = slot at hslot hmnemonic hurl
    have hget : s.cache.get fetch mnemonic lang =
        Cache.settle { s.cache with slots } fetch (slotKey mnemonic (ref.urlFor lang)) := by
      rw [Cache.get, henter]
    rw [hget]
    cases houtcome : slot.outcome with
    | some outcome =>
      rw [Cache.settle_of_known fetch (c := { s.cache with slots }) hslot houtcome, ← hmnemonic]
      exact ⟨_, .tail (.single hentered) (.share rfl hslot houtcome), rfl, rfl⟩
    | none =>
      rw [Cache.settle_of_open fetch (c := { s.cache with slots }) hslot houtcome, ← hmnemonic, ← hurl]
      have hnone : (before ++ ⟨mnemonic, lang, .waiting (ref.urlFor lang)⟩ :: after).filterMap
          Call.fetching? = [] := by
        rw [hcalls, filterMap_fetching?] at hidle
        rw [filterMap_fetching?]
        exact hidle
      have hfree : ∀ p ∈ (before ++ ⟨mnemonic, lang, .waiting (ref.urlFor lang)⟩ :: after).filterMap
          Call.fetching?, slotKey p.1 p.2 ≠ slotKey mnemonic (ref.urlFor lang) := by
        rw [hnone]
        exact fun p hp => absurd hp List.not_mem_nil
      exact ⟨_, .tail (.tail (.single hentered) (.fetch rfl hslot houtcome hfree))
        (.finish rfl (fetch mnemonic (ref.urlFor lang))), rfl, rfl⟩

/-! ## Sharing -/

/-- The answer to a call is the outcome of the one fetch for what it asks for. -/
theorem Consistent.exists_outcome (h : Consistent refs requests s)
    (hnul : ∀ ref ∈ refs, 0 ∉ ref.mnemonic) {call : Call} (hcall : call ∈ s.calls) {p : Bytes × Bytes}
    (hp : pairOf refs call.mnemonic call.lang = some p) {result : Except Fault Snapshot}
    (hresult : call.progress = .answered result) :
    ∃ fetched, (p, fetched) ∈ s.outcomes ∧ result = fetched.mapError (fetchFault p.1 p.2) := by
  cases h.calls call hcall with
  | refused hpair =>
    rw [hpair] at hp
    cases hp
  | answered hpair hslot hknown =>
    obtain rfl := Option.some.inj (hpair.symm.trans hp)
    obtain rfl := Progress.answered.inj hresult
    have houtcome := (h.slots _ _ hslot).outcome_eq
    rw [← h.slot_eq hnul hpair hslot, hknown] at houtcome
    obtain ⟨hm, hu⟩ := Prod.mk.inj (h.slot_eq hnul hpair hslot)
    obtain ⟨fetched, hfetched, heq⟩ := Option.map_eq_some_iff.1 houtcome.symm
    obtain ⟨before, after, houtcomes, -⟩ := List.lookup_eq_some_iff.1 hfetched
    exact ⟨fetched, by simp [houtcomes], by rw [← heq, hm, hu]⟩
  | asked => cases hresult
  | waiting => cases hresult
  | fetching => cases hresult

/-- **Calls share fetches.** However the moves of the calls interleave: a repository is fetched at most
once from an address, and only when a call asks for that; calls that ask for the same are given the outcome
of that fetch, and calls that ask for different things have different entries; a mnemonic that is not
declared is refused, without an entry; as many hits are counted as calls were answered with a snapshot that
they did not fetch; and moves end, not before every call has its answer. -/
theorem calls_share (hnul : ∀ ref ∈ refs, 0 ∉ ref.mnemonic) (hsteps : Steps (start refs requests) s) :
    (s.begun.Nodup ∧ ∀ p ∈ s.begun, ∃ r ∈ requests, pairOf refs r.1 r.2 = some p) ∧
    ((s.outcomes.map (·.1)).Nodup ∧ ∀ o ∈ s.outcomes, o.1 ∈ s.begun) ∧
    (∀ call ∈ s.calls, ∀ p result, pairOf refs call.mnemonic call.lang = some p →
      call.progress = .answered result →
        ∃ fetched, (p, fetched) ∈ s.outcomes ∧ result = fetched.mapError (fetchFault p.1 p.2)) ∧
    (∀ r ∈ requests, ∀ r' ∈ requests, ∀ p p', pairOf refs r.1 r.2 = some p →
      pairOf refs r'.1 r'.2 = some p' → slotKey p.1 p.2 = slotKey p'.1 p'.2 → p = p') ∧
    (∀ key slot, s.cache.slots.lookup key = some slot → key = slotKey slot.mnemonic slot.url ∧
      ∃ r ∈ requests, pairOf refs r.1 r.2 = some (slot.mnemonic, slot.url)) ∧
    (∀ call ∈ s.calls, pairOf refs call.mnemonic call.lang = none →
      (call.progress = .asked ∨ call.progress = .answered (.error (undeclared call.mnemonic))) ∧
      s.cache.enter call.mnemonic call.lang = (.error (undeclared call.mnemonic), s.cache)) ∧
    s.hits + s.successes = s.served ∧
    ((∀ s', Step s s' → (s'.calls.map Call.remaining).sum < (s.calls.map Call.remaining).sum) ∧
      ((¬ ∃ s', Step s s') → ∀ call ∈ s.calls, ∃ result, call.progress = .answered result)) := by
  have h := (consistent_start refs requests).steps hnul hsteps
  refine ⟨⟨h.nodup, fun p hp => (h.origin p hp).1⟩, ⟨?_, ?_⟩,
    fun call hcall p result hp hresult => h.exists_outcome hnul hcall hp hresult,
    fun r _ r' _ p p' hp hp' hkey => pairOf_inj hnul hp hp' hkey, ?_, ?_, h.hits,
    fun s' hstep => hstep.remaining_lt, ?_⟩
  · exact (h.begun.nodup_iff.1 h.nodup).of_append_left
  · intro o ho
    rw [h.begun.mem_iff]
    exact List.mem_append_left _ (List.mem_map_of_mem ho)
  · intro key slot hslot
    obtain ⟨hkey, hasked, -⟩ := h.slots key slot hslot
    exact ⟨hkey, hasked⟩
  · intro call hcall hnone
    have href : s.cache.reference? call.mnemonic = none := by
      rw [pairOf, ← h.refs_eq, Option.map_eq_none_iff] at hnone
      exact hnone
    refine ⟨?_, Cache.enter_of_undeclared href _⟩
    cases h.calls call hcall with
    | asked => exact .inl rfl
    | refused => exact .inr rfl
    | waiting hpair => cases hpair.symm.trans hnone
    | fetching hpair => cases hpair.symm.trans hnone
    | answered hpair => cases hpair.symm.trans hnone
  · intro hstuck call hcall
    by_contra hopen
    exact hstuck (h.exists_step hcall fun result hresult => hopen ⟨result, hresult⟩)

end Pool

end Steps

namespace Pool

/-- A repository that is declared under a mnemonic. -/
def blueprint : Reference where
  mnemonic := "bp"
  url := "u"

/-- A call for that repository. -/
def blueprintCall (lang : Bytes) (progress : Progress) : Call := ⟨"bp", lang, progress⟩

/-- Two calls ask for the same: the first makes the entry, the second fetches, and the first shares. -/
theorem calls_share_blueprint :
    (∀ ref ∈ [blueprint], 0 ∉ ref.mnemonic) ∧
      ∃ s, Steps (start [blueprint] [(Text.bytes "bp", Text.bytes "en"),
          (Text.bytes "bp", Text.bytes "de")]) s ∧
        s.begun = [(Text.bytes "bp", Text.bytes "u")] ∧ s.hits = 1 ∧
        ∀ call ∈ s.calls, call.isServed = true := by
  have hnul : ∀ ref ∈ [blueprint], 0 ∉ ref.mnemonic := by decide
  obtain ⟨s, hsteps, hbegun, hsuccesses, hserved, hcalls⟩ :
      ∃ s, Steps (start [blueprint] [(Text.bytes "bp", Text.bytes "en"),
          (Text.bytes "bp", Text.bytes "de")]) s ∧
        s.begun = [(Text.bytes "bp", Text.bytes "u")] ∧ s.successes = 1 ∧ s.served = 2 ∧
        ∀ call ∈ s.calls, call.isServed = true := by
    have hsecond : ∀ (progress progress' : Progress),
        [blueprintCall "en" progress, blueprintCall "de" progress'] =
          [blueprintCall "en" progress] ++ blueprintCall "de" progress' :: [] := fun _ _ => rfl
    have hfirst : ∀ (progress progress' : Progress),
        [blueprintCall "en" progress, blueprintCall "de" progress'] =
          [] ++ blueprintCall "en" progress :: [blueprintCall "de" progress'] := fun _ _ => rfl
    refine ⟨_, .tail (.tail (.tail (.tail (.single
      (.enter (hfirst .asked .asked) rfl))
      (.enter (hsecond (.waiting "u") .asked) rfl))
      (.fetch (hsecond (.waiting "u") (.waiting "u")) rfl rfl (by decide)))
      (.finish (hsecond (.waiting "u") (.fetching "u")) (.ok {})))
      (.share (hfirst (.waiting "u") (.answered (.ok {}))) rfl rfl), ?_, ?_, ?_, ?_⟩
    · rfl
    · rfl
    · rfl
    · decide
  obtain ⟨-, -, -, -, -, -, hhits, -⟩ := calls_share hnul hsteps
  refine ⟨hnul, s, hsteps, hbegun, ?_, hcalls⟩
  omega

end Pool

end Bindery.Repository
