import Mathlib.Data.List.Basic
import Mathlib.Data.List.Perm.Basic
import Bindery.Manifest

/-!
# What the hash of a build identifies

The hash is taken over the essence of a manifest, whose languages and repositories are put in the order of
their names. An order by names says nothing of the items that have one name: it depends on how they are
arranged where they are put (`Ties`). So the hash tells builds apart as it should (`Identifies.alike`), and
forgets the order of a list of which no two different items have one name; where some have, a stable sort
leaves them in the order in which they were, and with it the hash depends on that order.
-/

namespace Bindery.Manifest

open Text (bytes)

/-! ## Arrangements -/

section Arrangement

variable {α : Type} {key : α → Bytes} {arrange : List α → List α} {items items' : List α}

def Ordered (key : α → Bytes) (items : List α) : Prop :=
  items.Pairwise fun a b => Text.le (key a) (key b) = true

instance (key : α → Bytes) (items : List α) : Decidable (Ordered key items) :=
  inferInstanceAs (Decidable (List.Pairwise _ _))

/-- A way to put items in the order of their keys. What it does with items of one key is left open. -/
structure Arranges (key : α → Bytes) (arrange : List α → List α) : Prop where
  perm : ∀ items, (arrange items).Perm items
  ordered : ∀ items, Ordered key (arrange items)

/-- No two different items have one key. -/
def Unambiguous (key : α → Bytes) (items : List α) : Prop :=
  ∀ a ∈ items, ∀ b ∈ items, key a = key b → a = b

/-- Two lists have the same items of each key, and in the same order. -/
def Ties (key : α → Bytes) (items items' : List α) : Prop :=
  ∀ k, items.filter (key · == k) = items'.filter (key · == k)

/-- An arrangement that leaves items of one key in the order in which they were. -/
def Stable (key : α → Bytes) (arrange : List α → List α) : Prop := ∀ items, Ties key (arrange items) items

theorem le_iff {a b : Bytes} : Text.le a b = true ↔ a ≤ b := decide_eq_true_iff

theorem eq_of_le_of_le {a b : Bytes} (hab : Text.le a b = true) (hba : Text.le b a = true) : a = b :=
  List.le_antisymm (le_iff.1 hab) (le_iff.1 hba)

theorem le_of_le_of_le {a b c : Bytes} (hab : Text.le a b = true) (hbc : Text.le b c = true) :
    Text.le a c = true := le_iff.2 (List.le_trans (le_iff.1 hab) (le_iff.1 hbc))

theorem le_or_le (a b : Bytes) : (Text.le a b || Text.le b a) = true := by
  rw [Bool.or_eq_true, le_iff, le_iff]
  exact List.le_total a b

/-- Two arrangements of the same items agree if no two different items have one key. -/
theorem Arranges.eq_of_perm (h : Arranges key arrange) (hperm : items.Perm items')
    (hkeys : Unambiguous key items) : arrange items = arrange items' := by
  have hperm' : (arrange items).Perm (arrange items') :=
    (h.perm items).trans (hperm.trans (h.perm items').symm)
  refine hperm'.eq_of_pairwise (fun a b ha hb hab hba => ?_) (h.ordered items) (h.ordered items')
  have hb' : b ∈ items := (h.perm items).subset (hperm'.symm.subset hb)
  exact hkeys a ((h.perm items).subset ha) b hb' (eq_of_le_of_le hab hba)

theorem Ties.symm (h : Ties key items items') : Ties key items' items := fun k => (h k).symm

theorem Ties.trans {items'' : List α} (h : Ties key items items') (h' : Ties key items' items'') :
    Ties key items items'' := fun k => (h k).trans (h' k)

theorem Ties.mem (h : Ties key items items') {a : α} (ha : a ∈ items) : a ∈ items' := by
  have hfilter : a ∈ items.filter (key · == key a) := List.mem_filter.2 ⟨ha, beq_self_eq_true _⟩
  rw [h (key a)] at hfilter
  exact (List.mem_filter.1 hfilter).1

theorem Ordered.head_le {a b : α} (h : Ordered key (a :: items)) (hb : b ∈ a :: items) :
    Text.le (key a) (key b) = true := by
  rcases List.mem_cons.1 hb with rfl | hb
  · exact le_iff.2 (List.le_refl _)
  · exact List.rel_of_pairwise_cons h hb

theorem Ordered.eq_of_ties (h : Ordered key items) (h' : Ordered key items')
    (hties : Ties key items items') : items = items' := by
  induction items generalizing items' with
  | nil =>
    cases items' with
    | nil => rfl
    | cons b items' => simpa using hties (key b)
  | cons a items ih =>
    cases items' with
    | nil => simpa using hties (key a)
    | cons b items' =>
      -- Each head has the smallest key of both lists, so they have one key, and each comes first of it.
      have hkey : key a = key b := eq_of_le_of_le
        (h.head_le (hties.symm.mem List.mem_cons_self)) (h'.head_le (hties.mem List.mem_cons_self))
      have hhead := hties (key a)
      simp only [List.filter_cons, hkey, beq_self_eq_true, if_true, List.cons.injEq] at hhead
      obtain rfl := hhead.1
      refine congrArg (a :: ·) (ih (List.Pairwise.of_cons h) (List.Pairwise.of_cons h') fun k => ?_)
      have htail := hties k
      rw [List.filter_cons, List.filter_cons] at htail
      split at htail
      · exact (List.cons.inj htail).2
      · exact htail

/-- What a stable arrangement makes of two lists is the same exactly if they agree at each key. -/
theorem Arranges.eq_iff_ties (h : Arranges key arrange) (hstable : Stable key arrange) :
    arrange items = arrange items' ↔ Ties key items items' := by
  constructor
  · intro heq
    exact (hstable items).symm.trans (heq ▸ hstable items')
  · intro hties
    exact (h.ordered items).eq_of_ties (h.ordered items')
      (((hstable items).trans hties).trans (hstable items').symm)

theorem arranges_sortOn (key : α → Bytes) : Arranges key (sortOn key) where
  perm _ := List.mergeSort_perm _ _
  ordered items := @List.pairwise_mergeSort _ (fun a b => Text.le (key a) (key b))
    (fun _ _ _ => le_of_le_of_le) (fun _ _ => le_or_le _ _) items

theorem stable_sortOn (key : α → Bytes) : Stable key (sortOn key) := by
  intro items k
  -- The items of one key are in order, so sorting leaves them as a sublist, and keeps all of them.
  have hequal : Ordered key (items.filter (key · == k)) := by
    refine List.pairwise_of_forall_mem_list fun a ha b hb => ?_
    rw [eq_of_beq (List.mem_filter.1 ha).2, eq_of_beq (List.mem_filter.1 hb).2]
    exact le_iff.2 (List.le_refl k)
  have hsublist : (items.filter (key · == k)).Sublist (sortOn key items) :=
    @List.sublist_mergeSort _ (fun a b => Text.le (key a) (key b)) items (fun _ _ _ => le_of_le_of_le)
      (fun _ _ => le_or_le _ _) _ hequal List.filter_sublist
  have hfilter := hsublist.filter (key · == k)
  rw [List.filter_filter] at hfilter
  simp only [Bool.and_self] at hfilter
  exact (hfilter.eq_of_length (((arranges_sortOn key).perm items).filter _).length_eq.symm).symm

end Arrangement

/-! ## Builds -/

/-- Two manifests are of builds of the same input and project, that gave the same languages from the same
repositories, in whatever order these are listed. -/
structure Alike (m m' : Manifest) : Prop where
  input : m.input = m'.input
  project : m.project = m'.project
  editions : m.editions.Perm m'.editions
  repositories : m.repositories.Perm m'.repositories

/-- Writing and digesting two essences keeps them apart. -/
structure KeptApart (e e' : Essence) : Prop where
  of_render : e.tree.render = e'.tree.render → e = e'
  of_digest : Sha256.hex e.tree.render = Sha256.hex e'.tree.render → e.tree.render = e'.tree.render

/-- What the hashes of two manifests say, with languages and repositories arranged in given ways. -/
structure Identifies (arrangeEditions : List Edition → List Edition)
    (arrangeSources : List Source → List Source) (m m' : Manifest) : Prop where
  /-- Builds of one hash are alike. -/
  alike : m.hashBy arrangeEditions arrangeSources = m'.hashBy arrangeEditions arrangeSources →
    Alike m m'
  /-- Builds that are alike have one hash if their names are unambiguous. -/
  hash_eq : Alike m m' → Unambiguous Edition.id m.editions → Unambiguous Source.name m.repositories →
    m.hashBy arrangeEditions arrangeSources = m'.hashBy arrangeEditions arrangeSources
  /-- If the arrangements are stable, the order of what has one name is all that matters besides. -/
  hash_eq_iff : Stable Edition.id arrangeEditions → Stable Source.name arrangeSources →
    (m.hashBy arrangeEditions arrangeSources = m'.hashBy arrangeEditions arrangeSources ↔
      Alike m m' ∧ Ties Edition.id m.editions m'.editions ∧
        Ties Source.name m.repositories m'.repositories)
  /-- Neither the time and the outcome of the build nor its place matter. -/
  hash_update : ∀ id timestamp status duration root,
    { m with id, timestamp, status, duration, root }.hashBy arrangeEditions arrangeSources =
      m.hashBy arrangeEditions arrangeSources

section Hash

variable {arrangeEditions : List Edition → List Edition} {arrangeSources : List Source → List Source}
  {m m' : Manifest}

/-- Hashes agree exactly if the essences do. -/
theorem KeptApart.hashBy_eq_iff
    (h : KeptApart (m.essenceBy arrangeEditions arrangeSources) (m'.essenceBy arrangeEditions arrangeSources)) :
    m.hashBy arrangeEditions arrangeSources = m'.hashBy arrangeEditions arrangeSources ↔
      m.input = m'.input ∧ m.project = m'.project ∧
        arrangeEditions m.editions = arrangeEditions m'.editions ∧
        arrangeSources m.repositories = arrangeSources m'.repositories := by
  have hessence : m.hashBy arrangeEditions arrangeSources = m'.hashBy arrangeEditions arrangeSources ↔
      m.essenceBy arrangeEditions arrangeSources = m'.essenceBy arrangeEditions arrangeSources :=
    ⟨fun heq => h.of_render (h.of_digest heq),
      fun heq => congrArg (fun e : Essence => Sha256.hex e.tree.render) heq⟩
  rw [hessence, essenceBy, essenceBy, Essence.mk.injEq]

theorem Arranges.perm_of_eq {α : Type} {key : α → Bytes} {arrange : List α → List α}
    (h : Arranges key arrange) {items items' : List α} (heq : arrange items = arrange items') :
    items.Perm items' := (h.perm items).symm.trans (heq ▸ h.perm items')

/-- **What a hash identifies.** -/
theorem hashBy_identifies (heditions : Arranges Edition.id arrangeEditions)
    (hsources : Arranges Source.name arrangeSources)
    (h : KeptApart (m.essenceBy arrangeEditions arrangeSources)
      (m'.essenceBy arrangeEditions arrangeSources)) :
    Identifies arrangeEditions arrangeSources m m' where
  alike heq := by
    obtain ⟨hinput, hproject, hlists, hlists'⟩ := h.hashBy_eq_iff.1 heq
    exact ⟨hinput, hproject, heditions.perm_of_eq hlists, hsources.perm_of_eq hlists'⟩
  hash_eq halike hids hnames :=
    h.hashBy_eq_iff.2 ⟨halike.input, halike.project, heditions.eq_of_perm halike.editions hids,
      hsources.eq_of_perm halike.repositories hnames⟩
  hash_eq_iff hstable hstable' := by
    rw [h.hashBy_eq_iff, heditions.eq_iff_ties hstable, hsources.eq_iff_ties hstable']
    constructor
    · rintro ⟨hinput, hproject, hties, hties'⟩
      exact ⟨⟨hinput, hproject, heditions.perm_of_eq ((heditions.eq_iff_ties hstable).2 hties),
        hsources.perm_of_eq ((hsources.eq_iff_ties hstable').2 hties')⟩, hties, hties'⟩
    · rintro ⟨halike, hties, hties'⟩
      exact ⟨halike.input, halike.project, hties, hties'⟩
  hash_update _ _ _ _ _ := rfl

/-- A library at the address for most languages. -/
def library : Source := { name := "lib", url := "u1", commit := "c" }

/-- The same library at the address for one language. -/
def localLibrary : Source := { name := "lib", url := "u2", commit := "d" }

/-- A build that used libraries, listed in some order. -/
def usingLibraries (repositories : List Source) : Manifest := { input := "book.md", repositories }

theorem sortOn_eq_self {α : Type} {key : α → Bytes} {items : List α} (h : Ordered key items) :
    sortOn key items = items := List.mergeSort_of_pairwise h

theorem essenceBy_usingLibraries {repositories : List Source} (h : Ordered Source.name repositories) :
    (usingLibraries repositories).essenceBy (sortOn Edition.id) (sortOn Source.name) =
      { input := "book.md", project := none, editions := [], repositories } := by
  have hnone : Ordered Edition.id [] := .nil
  rw [essenceBy, usingLibraries, sortOn_eq_self h, sortOn_eq_self hnone]

theorem digest_usingLibraries :
    Sha256.hex (Essence.mk "book.md" none [] [library, localLibrary]).tree.render ≠
      Sha256.hex (Essence.mk "book.md" none [] [localLibrary, library]).tree.render := by
  decide +kernel

/-- One library from two addresses: the two orders in which it can be listed have two hashes. -/
theorem hashBy_identifies_libraries :
    Arranges Edition.id (sortOn Edition.id) ∧ Arranges Source.name (sortOn Source.name) ∧
      Identifies (sortOn Edition.id) (sortOn Source.name) (usingLibraries [library, localLibrary])
        (usingLibraries [localLibrary, library]) ∧
      Alike (usingLibraries [library, localLibrary]) (usingLibraries [localLibrary, library]) ∧
      (usingLibraries [library, localLibrary]).hash ≠ (usingLibraries [localLibrary, library]).hash := by
  have hordered : Ordered Source.name [library, localLibrary] := by decide
  have hordered' : Ordered Source.name [localLibrary, library] := by decide
  have hfirst := essenceBy_usingLibraries hordered
  have hsecond := essenceBy_usingLibraries hordered'
  have hdigest := digest_usingLibraries
  have hapart : KeptApart
      ((usingLibraries [library, localLibrary]).essenceBy (sortOn Edition.id) (sortOn Source.name))
      ((usingLibraries [localLibrary, library]).essenceBy (sortOn Edition.id) (sortOn Source.name)) := by
    rw [hfirst, hsecond]
    exact ⟨fun heq => absurd (congrArg Sha256.hex heq) hdigest, fun heq => absurd heq hdigest⟩
  refine ⟨arranges_sortOn _, arranges_sortOn _,
    hashBy_identifies (arranges_sortOn _) (arranges_sortOn _) hapart,
    ⟨rfl, rfl, List.Perm.refl _, List.Perm.swap _ _ _⟩, ?_⟩
  rw [hash, hash, hashBy, hashBy, hfirst, hsecond]
  exact hdigest

end Hash

end Bindery.Manifest
