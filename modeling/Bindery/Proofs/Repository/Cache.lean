import Mathlib.Data.List.Basic
import Bindery.Proofs.Fault
import Bindery.Proofs.Text.Split
import Bindery.Repository.Cache

/-!
# What the cache answers

A request is answered with what the slot of its key holds: the outcome that is known, or the one that
fetching gives. Answering it settles that slot and leaves all others as they are, so a later request
gets the answer of an earlier one exactly if the two share a key.
-/

namespace Bindery.Repository

/-- What comes of fetching a repository from an address. -/
def fetched (fetch : Fetcher) (mnemonic url : Bytes) : Except Fault Snapshot :=
  (fetch mnemonic url).mapError (Cache.fetchFault mnemonic url)

/-- The outcome of a slot, now or once it is settled. -/
def Slot.result (fetch : Fetcher) (slot : Slot) : Except Fault Snapshot :=
  slot.outcome.getD (fetched fetch slot.mnemonic slot.url)

namespace Cache

/-- What a request for a repository at an address is answered with. -/
def held (fetch : Fetcher) (c : Cache) (mnemonic url : Bytes) : Except Fault Snapshot :=
  match c.slots.lookup (slotKey mnemonic url) with
  | some slot => slot.result fetch
  | none => fetched fetch mnemonic url

/-! ## Slots -/

theorem lookup_map_outcome (slots : List (Bytes × Slot)) (key k : Bytes)
    (outcome : Except Fault Snapshot) :
    (slots.map fun (k, s) =>
        if k == key then (k, { s with outcome := some outcome }) else (k, s)).lookup k =
      (slots.lookup k).map fun s => if k = key then { s with outcome := some outcome } else s := by
  induction slots with
  | nil => rfl
  | cons entry slots ih =>
    obtain ⟨k', s⟩ := entry
    have hfirst : (if k' == key then (k', { s with outcome := some outcome }) else (k', s)) =
        (k', if k' = key then { s with outcome := some outcome } else s) := by
      by_cases hkey : k' = key <;> simp [hkey]
    simp only [List.map_cons, hfirst, List.lookup_cons]
    rw [ih]
    by_cases hk : k = k'
    · simp [hk]
    · simp [beq_false_of_ne hk]

/-! ## Entering and settling -/

def undeclared (mnemonic : Bytes) : Fault :=
  .raise .repository "undeclared repository" [("repository", .str mnemonic)]

theorem enter_of_undeclared {c : Cache} {mnemonic : Bytes} (h : c.reference? mnemonic = none)
    (lang : Bytes) : c.enter mnemonic lang = (.error (undeclared mnemonic), c) := by
  simp only [enter, h, undeclared]

/-- A declared repository is entered under its key: the slot is there afterwards, as it was or
new. -/
theorem enter_of_reference {c : Cache} {mnemonic : Bytes} {ref : Reference}
    (h : c.reference? mnemonic = some ref) (lang : Bytes) :
    ∃ slots, c.enter mnemonic lang =
        (.ok (slotKey mnemonic (ref.urlFor lang)), { c with slots }) ∧
      slots.lookup (slotKey mnemonic (ref.urlFor lang)) =
        some ((c.slots.lookup (slotKey mnemonic (ref.urlFor lang))).getD
          { mnemonic, url := ref.urlFor lang }) ∧
      ∀ k ≠ slotKey mnemonic (ref.urlFor lang), slots.lookup k = c.slots.lookup k := by
  simp only [enter, h]
  cases hslot : c.slots.lookup (slotKey mnemonic (ref.urlFor lang)) with
  | some slot => exact ⟨c.slots, rfl, hslot, fun _ _ => rfl⟩
  | none =>
    refine ⟨_, rfl, ?_, fun k hk => ?_⟩
    · simp [List.lookup_append, hslot]
    · have hbeq : (k == slotKey mnemonic (ref.urlFor lang)) = false := beq_false_of_ne hk
      simp [List.lookup_append, List.lookup_cons, hbeq]

theorem share_eq (c : Cache) (mnemonic : Bytes) (outcome : Except Fault Snapshot) :
    (c.share mnemonic outcome).refs = c.refs ∧ (c.share mnemonic outcome).slots = c.slots := by
  cases outcome <;> exact ⟨rfl, rfl⟩

theorem settle_of_known (fetch : Fetcher) {c : Cache} {key : Bytes} {slot : Slot}
    {outcome : Except Fault Snapshot} (h : c.slots.lookup key = some slot)
    (hknown : slot.outcome = some outcome) :
    c.settle fetch key = (outcome, c.share slot.mnemonic outcome) := by
  simp only [settle, h, hknown]

theorem settle_of_open (fetch : Fetcher) {c : Cache} {key : Bytes} {slot : Slot}
    (h : c.slots.lookup key = some slot) (hopen : slot.outcome = none) :
    c.settle fetch key = c.record key slot.mnemonic slot.url (fetch slot.mnemonic slot.url) := by
  simp only [settle, h, hopen]

/-- A slot that is settled keeps its result, and so do all others. -/
theorem settle_of_lookup (fetch : Fetcher) {c : Cache} {key : Bytes} {slot : Slot}
    (h : c.slots.lookup key = some slot) :
    (c.settle fetch key).1 = slot.result fetch ∧ (c.settle fetch key).2.refs = c.refs ∧
      ∀ k, ((c.settle fetch key).2.slots.lookup k).map (Slot.result fetch) =
        (c.slots.lookup k).map (Slot.result fetch) := by
  cases houtcome : slot.outcome with
  | some outcome =>
    rw [settle_of_known fetch h houtcome]
    obtain ⟨hrefs, hslots⟩ := share_eq c slot.mnemonic outcome
    exact ⟨by simp [Slot.result, houtcome], hrefs, fun _ => by rw [hslots]⟩
  | none =>
    have hresult : slot.result fetch = fetched fetch slot.mnemonic slot.url := by
      simp [Slot.result, houtcome]
    rw [settle_of_open fetch h houtcome]
    refine ⟨hresult.symm, rfl, fun k => ?_⟩
    simp only [record, lookup_map_outcome]
    by_cases hk : k = key
    · subst hk
      simp only [h, Option.map_some, if_true, Option.some.injEq]
      rw [hresult]
      rfl
    · simp [hk]

/-! ## Requests -/

theorem get_of_undeclared (fetch : Fetcher) {c : Cache} {mnemonic : Bytes} (h : c.reference? mnemonic = none)
    (lang : Bytes) :
    c.get fetch mnemonic lang =
      (.error (.raise .repository "undeclared repository" [("repository", .str mnemonic)]), c) := by
  simp only [get, enter, h]

/-- **The answer to a request** for a declared repository is what its slot holds. Answering it settles
the slot, and only the slot. -/
theorem get_of_reference (fetch : Fetcher) {c : Cache} {mnemonic : Bytes} {ref : Reference}
    (h : c.reference? mnemonic = some ref) (lang : Bytes) :
    (c.get fetch mnemonic lang).1 = c.held fetch mnemonic (ref.urlFor lang) ∧
      (c.get fetch mnemonic lang).2.refs = c.refs ∧
      ∀ m url, (c.get fetch mnemonic lang).2.held fetch m url =
        if slotKey m url = slotKey mnemonic (ref.urlFor lang) then
          c.held fetch mnemonic (ref.urlFor lang)
        else c.held fetch m url := by
  obtain ⟨slots, henter, hslot, hothers⟩ := enter_of_reference h lang
  have hget : c.get fetch mnemonic lang =
      settle { c with slots } fetch (slotKey mnemonic (ref.urlFor lang)) := by
    rw [get, henter]
  obtain ⟨hanswer, hrefs, hkept⟩ := settle_of_lookup fetch (c := { c with slots }) hslot
  have hheld : ((c.slots.lookup (slotKey mnemonic (ref.urlFor lang))).getD
      { mnemonic, url := ref.urlFor lang }).result fetch = c.held fetch mnemonic (ref.urlFor lang) := by
    rw [held]
    cases c.slots.lookup (slotKey mnemonic (ref.urlFor lang)) with
    | some slot => rfl
    | none => rfl
  rw [hget]
  refine ⟨hanswer.trans hheld, hrefs, fun m url => ?_⟩
  have hresult := hkept (slotKey m url)
  split
  · next hkey =>
    rw [hkey, hslot, Option.map_some, hheld] at hresult
    obtain ⟨slot, hlookup, hslot'⟩ := Option.map_eq_some_iff.1 hresult
    rw [held, hkey, hlookup]
    exact hslot'
  · next hkey =>
    rw [hothers _ hkey] at hresult
    rw [held, held]
    cases hbefore : c.slots.lookup (slotKey m url) with
    | some slot =>
      rw [hbefore, Option.map_some] at hresult
      obtain ⟨slot', hlookup, hslot'⟩ := Option.map_eq_some_iff.1 hresult
      rw [hlookup]
      exact hslot'
    | none =>
      rw [hbefore, Option.map_none] at hresult
      rw [Option.map_eq_none_iff.1 hresult]

/-! ## Keys -/

/-- Without a NUL byte in a mnemonic, keys tell mnemonics and addresses apart. -/
theorem slotKey_inj {mnemonic mnemonic' url url' : Bytes} (h : 0 ∉ mnemonic) (h' : 0 ∉ mnemonic')
    (heq : slotKey mnemonic url = slotKey mnemonic' url') : mnemonic = mnemonic' ∧ url = url' := by
  rw [slotKey, slotKey, List.append_assoc, List.append_assoc] at heq
  exact (Text.append_cons_inj h h').1 heq

/-- Whether requests for two languages are kept apart: those that share a slot would be answered alike
if each was answered with what it asked for. -/
def Apart (fetch : Fetcher) (c : Cache) (lang other : Bytes) : Prop :=
  ∀ m m' ref ref', c.reference? m = some ref → c.reference? m' = some ref' →
    slotKey m (ref.urlFor lang) = slotKey m' (ref'.urlFor other) →
    fetched fetch m (ref.urlFor lang) = fetched fetch m' (ref'.urlFor other)

theorem reference?_congr {c d : Cache} (h : c.refs = d.refs) (mnemonic : Bytes) :
    c.reference? mnemonic = d.reference? mnemonic := by
  rw [reference?, reference?, h]

theorem Apart.congr {fetch : Fetcher} {c d : Cache} {lang other : Bytes}
    (h : c.Apart fetch lang other) (hrefs : d.refs = c.refs) : d.Apart fetch lang other := by
  intro m m' ref ref' href href'
  rw [reference?_congr hrefs] at href href'
  exact h m m' ref ref' href href'

theorem no_nul_of_reference? {c : Cache} (h : ∀ ref ∈ c.refs, 0 ∉ ref.mnemonic) {mnemonic : Bytes}
    {ref : Reference} (href : c.reference? mnemonic = some ref) : 0 ∉ mnemonic := by
  have hsame : ref.mnemonic = mnemonic := by simpa using List.find?_some href
  have hmem : ref ∈ c.refs := List.mem_reverse.1 (List.mem_of_find?_eq_some href)
  exact hsame ▸ h ref hmem

/-- A cache that holds no failures but those of fetches. -/
def Honest (c : Cache) : Prop :=
  ∀ key slot fault, c.slots.lookup key = some slot → slot.outcome = some (.error fault) →
    ∃ cause, fault = fetchFault slot.mnemonic slot.url cause

theorem honest_of_fresh {c : Cache} (h : c.slots = []) : c.Honest := by
  intro key slot fault hslot
  rw [h] at hslot
  cases hslot

theorem honest_enter {c : Cache} (h : c.Honest) (mnemonic lang : Bytes) :
    (c.enter mnemonic lang).2.Honest := by
  cases href : c.reference? mnemonic with
  | none => simpa only [enter, href] using h
  | some ref =>
    obtain ⟨slots, henter, hslot, hothers⟩ := enter_of_reference href lang
    rw [henter]
    intro key slot fault hkey houtcome
    by_cases hk : key = slotKey mnemonic (ref.urlFor lang)
    · subst hk
      rw [hslot] at hkey
      cases hbefore : c.slots.lookup (slotKey mnemonic (ref.urlFor lang)) with
      | some before =>
        rw [hbefore] at hkey
        obtain rfl : before = slot := Option.some.inj hkey
        exact h _ _ _ hbefore houtcome
      | none =>
        rw [hbefore] at hkey
        obtain rfl := Option.some.inj hkey
        cases houtcome
    · exact h key slot fault ((hothers key hk).symm.trans hkey) houtcome

theorem honest_settle (fetch : Fetcher) {c : Cache} (h : c.Honest) (key : Bytes) :
    (c.settle fetch key).2.Honest := by
  cases hslot : c.slots.lookup key with
  | none => simpa only [settle, hslot] using h
  | some slot =>
    cases houtcome : slot.outcome with
    | some outcome =>
      rw [settle_of_known fetch hslot houtcome]
      intro k slot' fault hk hfault
      rw [(share_eq c slot.mnemonic outcome).2] at hk
      exact h k slot' fault hk hfault
    | none =>
      rw [settle_of_open fetch hslot houtcome]
      intro k slot' fault hk hfault
      simp only [record, lookup_map_outcome] at hk
      obtain ⟨before, hbefore, heq⟩ := Option.map_eq_some_iff.1 hk
      by_cases hkey : k = key
      · subst hkey
        obtain rfl : slot = before := Option.some.inj (hslot.symm.trans hbefore)
        rw [if_pos rfl] at heq
        subst heq
        cases hfetch : fetch slot.mnemonic slot.url with
        | ok snapshot => simp [hfetch, Except.mapError] at hfault
        | error cause =>
          refine ⟨cause, ?_⟩
          simp only [hfetch, Except.mapError, Option.some.injEq, Except.error.injEq] at hfault
          exact hfault.symm
      · rw [if_neg hkey] at heq
        exact h k slot' fault (heq ▸ hbefore) hfault

/-- Answering requests keeps a cache honest. -/
theorem honest_get (fetch : Fetcher) {c : Cache} (h : c.Honest) (mnemonic lang : Bytes) :
    (c.get fetch mnemonic lang).2.Honest := by
  have henter := honest_enter h mnemonic lang
  unfold get
  split
  · next heq => rwa [heq] at henter
  · next heq =>
    rw [heq] at henter
    exact honest_settle fetch henter _

/-- **What an honest cache fails with**: a repository is not declared, or it cannot be fetched. -/
theorem fault_of_get (fetch : Fetcher) {c : Cache} (h : c.Honest) {mnemonic lang : Bytes}
    {fault : Fault} (hget : (c.get fetch mnemonic lang).1 = .error fault) :
    fault = .raise .repository "undeclared repository" [("repository", .str mnemonic)] ∨
      ∃ name url cause, fault = fetchFault name url cause := by
  cases href : c.reference? mnemonic with
  | none =>
    rw [get_of_undeclared fetch href] at hget
    exact .inl (Except.error.inj hget).symm
  | some ref =>
    right
    have hfetched : ∀ name url, fetched fetch name url = .error fault →
        ∃ name url cause, fault = fetchFault name url cause := by
      intro name url hf
      rw [fetched] at hf
      cases hfetch : fetch name url with
      | ok snapshot => simp [hfetch, Except.mapError] at hf
      | error cause =>
        simp only [hfetch, Except.mapError, Except.error.injEq] at hf
        exact ⟨name, url, cause, hf.symm⟩
    rw [(get_of_reference fetch href lang).1, held] at hget
    split at hget
    · next slot hslot =>
      rw [Slot.result] at hget
      cases houtcome : slot.outcome with
      | none =>
        rw [houtcome] at hget
        exact hfetched _ _ hget
      | some outcome =>
        rw [houtcome] at hget
        obtain ⟨cause, rfl⟩ := h _ slot fault hslot (houtcome.trans (congrArg some hget))
        exact ⟨_, _, cause, rfl⟩
    · exact hfetched _ _ hget

theorem category_of_get (fetch : Fetcher) {c : Cache} (h : c.Honest) {mnemonic lang : Bytes}
    {fault : Fault} (hget : (c.get fetch mnemonic lang).1 = .error fault) :
    fault.category = .repository := by
  rcases fault_of_get fetch h hget with rfl | ⟨name, url, cause, rfl⟩
  · exact Fault.category_raise _ _ _
  · exact Fault.category_classified _ _

end Cache

end Bindery.Repository
