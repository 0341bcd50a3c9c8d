import Bindery.Proofs.Expansion.Spot
import Bindery.Proofs.Metadata.Store

/-!
# Titles of definitions

A definition asks for the title of its type, which it prints. The registry keeps one title for each type,
and a later definition of the type replaces it. References are resolved when the whole book is expanded, so
they show the last title (`expand_titles`). Metadata only grows, and a pass alone is given another title
only if a block that tells it was merged in between (`title_of_exchanges`).
-/

namespace Bindery.Expansion

open Text
open Repository (Fetcher)

/-! ## Titles that are given one after the other -/

/-- The title that the definition behind the first `k` of its type prints. -/
def printedTitle (type : Bytes) (trace : List Exchange) (k : Nat) : Bytes :=
  titleAfter (Text.title type) ((titlesGiven type trace).take (k + 1))

/-- The title that references to the definitions of a type show. -/
def linkedTitle (type : Bytes) (trace : List Exchange) : Bytes :=
  titleAfter (Text.title type) (titlesGiven type trace)

theorem titleAfter_of_forall_eq {given : List Bytes} {new : Bytes} (h : ∀ t ∈ given, t = new)
    (hne : given ≠ []) (title : Bytes) :
    titleAfter title given = if new.isEmpty then title else new := by
  induction given generalizing title with
  | nil => exact absurd rfl hne
  | cons first given ih =>
    obtain ⟨rfl, hrest⟩ := List.forall_mem_cons.1 h
    rw [titleAfter, List.foldl_cons, ← titleAfter]
    by_cases hnil : given = []
    · rw [hnil]
      rfl
    · rw [ih hrest hnil]
      split <;> rfl

/-- If one title is given from some place on, it does not matter how often. -/
theorem titleAfter_take {given more : List Bytes} {k : Nat} (hk : given.length ≤ k)
    (h : ∀ a ∈ more, ∀ b ∈ more, a = b) (title : Bytes) :
    titleAfter title ((given ++ more).take (k + 1)) = titleAfter title (given ++ more) := by
  rw [List.take_append, List.take_of_length_le (by omega), titleAfter_append, titleAfter_append]
  cases more with
  | nil => simp
  | cons new more =>
    have hnew : ∀ t ∈ new :: more, t = new := fun t ht => h t ht new List.mem_cons_self
    have hsome : (new :: more).take (k + 1 - given.length) ≠ [] := by
      rw [ne_eq, List.take_eq_nil_iff]
      simp
      omega
    rw [titleAfter_of_forall_eq hnew (by simp),
      titleAfter_of_forall_eq (fun t ht => hnew t (List.mem_of_mem_take ht)) hsome]

/-! ## Titles of a pass alone -/

def Exchange.block? : Exchange → Option Layer
  | ⟨.merge block, _⟩ => some block
  | _ => none

def mergedBlocks (trace : List Exchange) : List Layer := trace.filterMap Exchange.block?

/-- Until a block tells the title of a type, a pass alone is given the same one. -/
theorem title_of_exchanges {α : Type} (fetch : Fetcher) (lang type : Bytes) (x : Script α)
    (services : Services) {between after : List Exchange}
    (hx : x.exchanges fetch lang services = between ++ after)
    (hblocks : ∀ block ∈ mergedBlocks between, block.get? (type ++ bytes "Title") = none) :
    ∀ title ∈ titlesGiven type between, title = services.store.definitionTitle lang type := by
  induction between generalizing x services with
  | nil => exact nofun
  | cons first between ih =>
    cases x with
    | done a => cases hx
    | ask request next =>
      obtain ⟨rfl, hrest⟩ := List.cons.inj hx
      have hkept : (services.answer fetch lang request).2.store.definitionTitle lang type =
          services.store.definitionTitle lang type := by
        cases request with
        | merge block =>
          exact Metadata.Store.definitionTitle_merge _ (hblocks block List.mem_cons_self)
        | _ => rfl
      intro title htitle
      obtain ⟨e, he, hgiven⟩ := List.mem_filterMap.1 htitle
      rcases List.mem_cons.1 he with rfl | he
      · cases request with
        | definitionTitle asked =>
          rw [Exchange.title?] at hgiven
          split at hgiven
          · next hasked =>
            subst hasked
            exact (Option.some.inj hgiven).symm
          · cases hgiven
        | _ => cases hgiven
      · rw [← hkept]
        refine ih _ _ hrest (fun block hblock => hblocks block ?_) title
          (List.mem_filterMap.2 ⟨e, he, hgiven⟩)
        obtain ⟨e', he', hmerged⟩ := List.mem_filterMap.1 hblock
        exact List.mem_filterMap.2 ⟨e', List.mem_cons_of_mem _ he', hmerged⟩

/-- The conversation of a script that runs alone goes on as that of another script. -/
theorem exists_exchanges_of_append {α : Type} (fetch : Fetcher) (lang : Bytes) (x : Script α)
    (services : Services) {before after : List Exchange}
    (h : x.exchanges fetch lang services = before ++ after) :
    ∃ (y : Script α) (later : Services), y.exchanges fetch lang later = after := by
  induction before generalizing x services with
  | nil => exact ⟨x, services, h⟩
  | cons first before ih =>
    cases x with
    | done a => cases h
    | ask request next => exact ih _ _ (List.cons.inj h).2

/-- In a pass alone, a definition prints the title that references show if no block tells another between
the definitions before it and the last one. -/
theorem printedTitle_of_alone {fetch : Fetcher} {services : Services} {s : Setting} {root type : Bytes}
    {before between after : List Exchange} {k : Nat}
    (hconversation : conversation fetch services (s, root) = before ++ (between ++ after))
    (hbefore : (titlesGiven type before).length ≤ k) (hafter : titlesGiven type after = [])
    (hblocks : ∀ block ∈ mergedBlocks between, block.get? (type ++ bytes "Title") = none) :
    printedTitle type (conversation fetch services (s, root)) k =
      linkedTitle type (conversation fetch services (s, root)) := by
  obtain ⟨rest, later, hrest⟩ :=
    exists_exchanges_of_append fetch s.lang.id (expand s root) services hconversation
  have hsame := title_of_exchanges fetch s.lang.id type rest later hrest hblocks
  rw [printedTitle, linkedTitle, hconversation, titlesGiven_append, titlesGiven_append, hafter,
    List.append_nil]
  exact titleAfter_take hbefore (fun a ha b hb => (hsame a ha).trans (hsame b hb).symm) _

/-! ## Links -/

/-- A text is the link to the one definition of the label that a reference names: it shows the number that
the definition prints, and the title of the type of the definition, which is the `k`-th of its type. -/
structure LinksTo (trace : List Exchange) (p q : Performance) (k number : Nat) (text : Bytes) :
    Prop where
  definition : definitionsOf trace p.pending.label = [q]
  place : (definitionsLike (trim (q.arg 0)) trace)[k]? = some q
  prints : q.Shows (printedTitle (trim (q.arg 0)) trace k) number
  shows : text = linkTo (linkedTitle (trim (q.arg 0)) trace) number p.pending.label

theorem title_empty {lang type : Bytes} (h : Label.isBuiltin type = false) :
    ({ lang } : Label.Registry).title type = Text.title type := by
  have hnone : Label.builtinTitles.lookup type = none := by simpa [Label.isBuiltin] using h
  rw [Label.Registry.title, List.lookup_nil, hnone]
  rfl

theorem linksTo_of_drafts {s : Setting} {root : Bytes} {trace : List Exchange} {raw : Bytes}
    {draft : Draft} (h : Drafts s root trace raw draft) {n : Nat} {pending : Pending}
    {reference : Label.Reference} (hpending : draft.pending[n]? = some pending)
    (hlookup : draft.registry.lookup pending.label = .ok reference) :
    ∃ p q k number, (referring trace)[n]? = some p ∧ LinksTo trace p q k number reference.link := by
  obtain ⟨henrolled, -⟩ := h.enrolled
  have hcomplete := h.complete
  rw [hcomplete.pending, List.getElem?_map, Option.map_eq_some_iff] at hpending
  obtain ⟨p, hp, rfl⟩ := hpending
  have hdefined : definitionsOf trace p.pending.label ≠ [] := by
    intro hnil
    rw [hcomplete.lookup_error hnil] at hlookup
    cases hlookup
  obtain ⟨q, e, hone, hdefines, hkind, hfound⟩ := hcomplete.lookup_ok hdefined
  obtain rfl := Except.ok.inj (hlookup.symm.trans hfound)
  obtain ⟨hq, hlabel⟩ : q ∈ defining trace ∧ trim (q.arg 1) = p.pending.label := by
    have hmem : q ∈ definitionsOf trace p.pending.label := by
      rw [hone]
      exact List.mem_cons_self
    exact (List.mem_filter.1 hmem).imp_right eq_of_beq
  have hlike : q ∈ definitionsLike (trim (q.arg 0)) trace :=
    List.mem_filter.2 ⟨hq, beq_self_eq_true _⟩
  obtain ⟨k, hk⟩ := List.mem_iff_getElem?.1 hlike
  obtain ⟨e', he', hkey, hshows⟩ := henrolled.shown _ k q hk
  have hsame := hcomplete.sound.lookup_of_mem he'
  rw [hkey, hlabel, hfound, Except.ok.injEq, Label.Reference.mk.injEq] at hsame
  obtain ⟨rfl, -⟩ := hsame
  have htype : Label.isBuiltin (trim (q.arg 0)) = false := hdefines.kind ▸ hkind
  refine ⟨p, q, k, e.number, hp, hone, hk, ?_, ?_⟩
  · rwa [title_empty htype] at hshows
  · rw [link_eq hkind, hdefines.kind, henrolled.title, title_empty htype, hkey, hlabel]
    rfl

/-- **Titles.** Whatever a book holds and the services answer: if the pass succeeds, then each mark in its
text has become a link to the one definition of its label. The link shows the number that the definition
prints. The definition prints the title that was given for its type last when it was done, and the link
shows the one that was given last of all.

In a pass alone these titles are the same unless a metadata block tells the title of the type after the
definitions of the type that come before this one, and before the last one. -/
theorem expand_titles (s : Setting) (root : Bytes) :
    (∀ trace expanded, (expand s root).Runs trace (.ok expanded) →
      ∃ raw draft link, Drafts s root trace raw draft ∧ expanded.text = replaceMarks link raw ∧
        ∀ digits ∈ marksIn raw, ∃ p q k number,
          (referring trace)[Double.digitsValue digits]? = some p ∧
            LinksTo trace p q k number (link digits)) ∧
    ∀ fetch services type before between after k,
      conversation fetch services (s, root) = before ++ (between ++ after) →
      (titlesGiven type before).length ≤ k → titlesGiven type after = [] →
      (∀ block ∈ mergedBlocks between, block.get? (type ++ bytes "Title") = none) →
      printedTitle type (conversation fetch services (s, root)) k =
        linkedTitle type (conversation fetch services (s, root)) := by
  refine ⟨fun trace expanded hruns => ?_, fun _ _ _ _ _ _ _ => printedTitle_of_alone⟩
  obtain ⟨raw, draft, hdrafts, ⟨link, htext, hmarks⟩, -⟩ := exists_drafts hruns
  refine ⟨raw, draft, link, hdrafts, htext, fun digits hdigits => ?_⟩
  obtain ⟨pending, reference, hpending, hlookup, hlink⟩ := hmarks digits hdigits
  rw [hlink]
  exact linksTo_of_drafts hdrafts hpending hlookup

/-- A book that includes a title for theorems between two of them. -/
def retitledSetting : Setting where
  tree :=
    { entries :=
        [([bytes "b"], .directory),
          ([bytes "b", bytes "book.md"],
            .file (bytes "\\definition\x7btheorem\x7d\x7ba\x7d\x7bA\x7d\n\n\\rel.input\x7bpart.md\x7d\n\n" ++
              bytes "\\definition\x7btheorem\x7d\x7bb\x7d\x7bB\x7d\n\nSee \\def.ref\x7ba\x7d.\n")),
          ([bytes "b", bytes "part.md"],
            .file (bytes "---\ntheoremTitle: Satz\n...\n\nPart.\n"))] }
  resolver := { root := bytes "/b" }

def retitled : List Exchange :=
  conversation (fun _ _ => .error .other) {} (retitledSetting, bytes "/b/book.md")

/-- The first theorem prints one title and its reference shows another. The second one is the last of its
type, and prints what references to it would show. -/
theorem expand_titles_retitled :
    ∃ expanded,
      (expand retitledSetting (bytes "/b/book.md")).Runs retitled (.ok expanded) ∧
      expanded.text =
        bytes "[**Theorem 1**]\x7b#def:a\x7d: A\n\n---\ntheoremTitle: Satz\n...\n\nPart.\n\n" ++
          bytes "[**Satz 2**]\x7b#def:b\x7d: B\n\nSee [Satz 1](#def:a).\n" ∧
      (∃ raw draft link, Drafts retitledSetting (bytes "/b/book.md") retitled raw draft ∧
        expanded.text = replaceMarks link raw ∧
        ∀ digits ∈ marksIn raw, ∃ p q k number,
          (referring retitled)[Double.digitsValue digits]? = some p ∧
            LinksTo retitled p q k number (link digits)) ∧
      printedTitle (bytes "theorem") retitled 0 = bytes "Theorem" ∧
      printedTitle (bytes "theorem") retitled 1 = linkedTitle (bytes "theorem") retitled := by
  have htext : text? (alone (fun _ _ => .error .other) {} (retitledSetting, bytes "/b/book.md")) =
      some (bytes "[**Theorem 1**]\x7b#def:a\x7d: A\n\n---\ntheoremTitle: Satz\n...\n\nPart.\n\n" ++
        bytes "[**Satz 2**]\x7b#def:b\x7d: B\n\nSee [Satz 1](#def:a).\n") := by decide +kernel
  obtain ⟨expanded, halone, heq⟩ := text?_eq_some.1 htext
  have hruns : (expand retitledSetting (bytes "/b/book.md")).Runs retitled (.ok expanded) :=
    halone ▸ runs_conversation _ _ _ _
  obtain ⟨hlinks, hsame⟩ := expand_titles retitledSetting (bytes "/b/book.md")
  -- The title of the second theorem is asked for in the fourteenth exchange, and none later.
  obtain ⟨hfirst, hgiven, hlater, hblocks⟩ :
      printedTitle (bytes "theorem") retitled 0 = bytes "Theorem" ∧
        (titlesGiven (bytes "theorem") (retitled.take 13)).length ≤ 1 ∧
        titlesGiven (bytes "theorem") ((retitled.drop 13).drop 1) = [] ∧
        ∀ block ∈ mergedBlocks ((retitled.drop 13).take 1),
          block.get? (bytes "theorem" ++ bytes "Title") = none := by decide +kernel
  refine ⟨expanded, hruns, heq, hlinks _ expanded hruns, hfirst, ?_⟩
  refine hsame _ _ _ _ ((retitled.drop 13).take 1) _ 1 ?_ hgiven hlater hblocks
  rw [List.take_append_drop, List.take_append_drop]
  rfl

end Bindery.Expansion
