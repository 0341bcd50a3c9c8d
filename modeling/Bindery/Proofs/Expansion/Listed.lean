import Bindery.Proofs.Expansion.Register
import Bindery.Proofs.Markdown.Fence

/-!
# Listings as code

A listing is written as a fenced block, and the fence has three marks whatever the listing holds. So the
block is read as the listing, and what follows as text, exactly if no line of the listing closes the fence
(`listing_fenced`).
-/

namespace Bindery.Expansion

open Text
open Markdown (ClosesFence fence? Builder)

/-- What stands behind the fence of a listing. -/
def fenceInfo (label fence : Bytes) : Bytes :=
  bytes "\x7b#lst:" ++ label ++ (if fence.isEmpty then [] else bytes " ." ++ fence) ++
    bytes " .numberLines\x7d"

def fenceLine (label fence : Bytes) : Bytes := bytes "```" ++ fenceInfo label fence

/-- How the text of a listing is read at the outermost level, with no block open. A caption of one line is
a paragraph. Behind the fence, the lines of the body are code up to the first one that closes the fence;
what is behind that line is read as if it stood behind a finished block. So the code is the body, and what
follows the listing is read as such, exactly if no line of the body closes the fence. -/
structure ReadAsListing (output caption opening info body : Bytes) : Prop where
  lines : lines output =
    lines (bytes "Listing: " ++ caption) ++ [] :: opening :: (lines body ++ [bytes "```"])
  opens : fence? opening = some (96, 3, info)
  caption : ∀ (b : Builder) (rest : List Bytes), b.frames = [] → b.leaf = .none → 10 ∉ caption →
    b.lines (Text.lines output ++ rest) =
      (b.withParagraph (Markdown.trimEnd (bytes "Listing: " ++ caption))).lines
        (opening :: (Text.lines body ++ bytes "```" :: rest))
  code : ∀ (b : Builder) (rest : List Bytes), b.frames = [] → b.leaf = .none →
    ∃ inside closing outside, Text.lines body ++ bytes "```" :: rest = inside ++ closing :: outside ∧
      ClosesFence 96 3 closing ∧
      b.lines (opening :: (Text.lines body ++ bytes "```" :: rest)) =
        (b.withCode info (inside.flatMap (· ++ [10]))).lines outside ∧
      ((inside.flatMap (· ++ [10]) = body ++ [10] ∧ outside = rest) ↔
        ∀ l ∈ Text.lines body, ¬ ClosesFence 96 3 l)

section

variable {label caption fence body : Bytes}

theorem fencedListing_eq (label caption fence body : Bytes) :
    fencedListing label caption fence body = (bytes "Listing: " ++ caption) ++
      10 :: ([] ++ 10 :: (fenceLine label fence ++ 10 :: (body ++ 10 :: bytes "```"))) := by
  have hopening : bytes "\n\n```\x7b#lst:" = 10 :: 10 :: (bytes "```" ++ bytes "\x7b#lst:") := rfl
  have hclosing : bytes "\n```" = 10 :: bytes "```" := rfl
  have hend : bytes " .numberLines\x7d\n" = bytes " .numberLines\x7d" ++ [10] := rfl
  rw [fencedListing, fenceLine, fenceInfo]
  change _ ++ bytes "\n\n```\x7b#lst:" ++ _ ++ _ ++ bytes " .numberLines\x7d\n" ++ _ ++ bytes "\n```" = _
  rw [hopening, hclosing, hend]
  simp only [List.append_assoc, List.cons_append, List.nil_append]

/-- The class of a code block is a word. -/
theorem isLetter_of_mem_fence (path : Bytes) :
    ∀ c ∈ (Listing.Language.ofPath path).fence, isLetter c = true := by
  have htable : ∀ entry ∈ Listing.Language.bySuffix, ∀ c ∈ entry.2.fence, isLetter c = true := by
    decide +kernel
  rw [Listing.Language.ofPath]
  cases hlookup : Listing.Language.bySuffix.lookup ((Path.ext path).map lowerByte) with
  | none => exact List.forall_mem_nil _
  | some language =>
    obtain ⟨before, after, hsplit, -⟩ := List.lookup_eq_some_iff.1 hlookup
    exact htable (_, language) (hsplit ▸ List.mem_append_right before List.mem_cons_self)

theorem mem_fenceInfo (hlabel : Label.isKey label = true) (hfence : ∀ c ∈ fence, isLetter c = true)
    {c : UInt8} (hc : c ∈ fenceInfo label fence) : c ≠ 10 ∧ c ≠ 96 := by
  simp only [fenceInfo, List.mem_append] at hc
  rcases hc with ((hc | hc) | hc) | hc
  · have hmarks : ∀ c ∈ bytes "\x7b#lst:", c ≠ 10 ∧ c ≠ 96 := by decide +kernel
    exact hmarks c hc
  · rw [Label.isKey, Bool.and_eq_true, List.all_eq_true] at hlabel
    have hbyte := hlabel.2 c hc
    constructor <;> rintro rfl <;> cases hbyte
  · split at hc
    · cases hc
    · rcases List.mem_append.1 hc with hc | hc
      · have hmarks : ∀ c ∈ bytes " .", c ≠ 10 ∧ c ≠ 96 := by decide +kernel
        exact hmarks c hc
      · have hletter := hfence c hc
        constructor <;> rintro rfl <;> cases hletter
  · have hmarks : ∀ c ∈ bytes " .numberLines\x7d", c ≠ 10 ∧ c ≠ 96 := by decide +kernel
    exact hmarks c hc

theorem fence?_fenceLine (hlabel : Label.isKey label = true) (hfence : ∀ c ∈ fence, isLetter c = true) :
    fence? (fenceLine label fence) = some (96, 3, fenceInfo label fence) := by
  have hmark : ¬ (fenceInfo label fence).contains 96 = true := by
    rw [List.contains_iff_mem]
    exact fun hmem => (mem_fenceInfo hlabel hfence hmem).2 rfl
  obtain ⟨more, hmore⟩ : ∃ more, fenceInfo label fence = 123 :: more := ⟨_, rfl⟩
  obtain ⟨init, hinit⟩ : ∃ init, fenceInfo label fence = init ++ [125] := by
    have hend : bytes " .numberLines\x7d" = bytes " .numberLines" ++ [125] := rfl
    rw [fenceInfo, hend, ← List.append_assoc]
    exact ⟨_, rfl⟩
  have htrim : Markdown.trimSpace (fenceInfo label fence) = fenceInfo label fence := by
    have hstart : (fenceInfo label fence).dropWhile Markdown.isSpace = fenceInfo label fence := by
      rw [hmore]
      rfl
    have hspace : ¬ Markdown.isSpace 125 = true := by decide
    rw [Markdown.trimSpace, hstart, hinit, Markdown.trimEnd, trimEnd, List.reverse_append,
      List.reverse_singleton, List.singleton_append, List.dropWhile_cons_of_neg hspace, List.reverse_cons,
      List.reverse_reverse]
  have hrun : ((fenceLine label fence).takeWhile (· == 96)).length = 3 := by
    rw [fenceLine, hmore]
    rfl
  have hline : fenceLine label fence = 96 :: 96 :: 96 :: fenceInfo label fence := rfl
  rw [hline] at hrun ⊢
  simp only [fence?, hrun, List.drop_succ_cons, List.drop_zero, htrim]
  rw [if_pos ⟨.inl trivial, le_rfl, fun h => hmark h.2⟩]

/-- The lines of a listing: its caption, an empty line, and the body between two fences. -/
theorem lines_fencedListing (hlabel : Label.isKey label = true) (hfence : ∀ c ∈ fence, isLetter c = true) :
    lines (fencedListing label caption fence body) =
      lines (bytes "Listing: " ++ caption) ++
        [] :: fenceLine label fence :: (lines body ++ [bytes "```"]) := by
  have hline : 10 ∉ fenceLine label fence := by
    rw [fenceLine, List.mem_append, not_or]
    exact ⟨by decide, fun hmem => (mem_fenceInfo hlabel hfence hmem).1 rfl⟩
  rw [fencedListing_eq]
  simp only [lines]
  rw [splitOn_append_cons, splitOn_append_cons, splitOn_append_cons, splitOn_append_cons,
    splitOn_of_notMem hline, splitOn_of_notMem (by decide : 10 ∉ bytes "```"),
    splitOn_of_notMem (List.not_mem_nil : 10 ∉ ([] : Bytes))]
  rfl

/-- What a listing is made of that a directive asked for. -/
theorem exists_of_runs_listing {s : Setting} {path url output : Bytes} {r : ListingRequest} {d d' : Draft}
    {trace : List Exchange} (h : (listing s path url r).Runs d trace (.ok (output, d'))) :
    ∃ source body, s.tree.read path = .ok source ∧
      Listing.extract source
        { lines := r.lines, labels := r.labels, options := r.options
          language := Listing.Language.ofPath path } = .ok body ∧
      Label.isKey (trim r.label) = true ∧
      output = fencedListing (trim r.label) (listingCaption r.caption url)
        (Listing.Language.ofPath path).fence body := by
  obtain ⟨-, -, number, hdefine⟩ := (runs_listing h).1
  have hkey := (Label.Registry.define_eq_ok hdefine).2.1
  rw [listing] at h
  obtain ⟨source, hsource, h⟩ := Pass.runs_require_bind_ok.1 h
  obtain ⟨rest, -, hnoted⟩ := Pass.runs_note_bind.1 h
  obtain ⟨body, hbody, hpass⟩ := Pass.runs_require_bind_ok.1 hnoted
  obtain ⟨number, d₁, first, rest, -, -, hpure⟩ := Pass.runs_bind_ok.1 hpass
  obtain ⟨-, hout⟩ := Pass.runs_pure.1 hpure
  cases hout
  exact ⟨source, body, eq_ok_of_mapError hsource, eq_ok_of_mapError hbody, hkey, rfl⟩

end

theorem closesFence_marks : ClosesFence 96 3 (bytes "```") :=
  ⟨0, 3, [], rfl, Nat.zero_le 3, le_rfl, nofun⟩

/-- Some line is the first that closes the fence. -/
theorem exists_closing (ls : List Bytes) (h : ∃ l ∈ ls, ClosesFence 96 3 l) :
    ∃ inside closing outside, ls = inside ++ closing :: outside ∧ ClosesFence 96 3 closing ∧
      ∀ l ∈ inside, ¬ ClosesFence 96 3 l := by
  have hiff := fun l => Markdown.closing_iff (.inl rfl : (96 : UInt8) = 96 ∨ _) (by decide : 0 < 3) l
  obtain ⟨l, hl, hcloses⟩ := h
  have hsome : (ls.find? fun l => Markdown.closing 96 3 { text := l }).isSome = true :=
    List.find?_isSome.2 ⟨l, hl, (hiff l).2 hcloses⟩
  obtain ⟨closing, hclosing⟩ := Option.isSome_iff_exists.1 hsome
  obtain ⟨hfirst, inside, outside, hsplit, hinside⟩ := List.find?_eq_some_iff_append.1 hclosing
  refine ⟨inside, closing, outside, hsplit, (hiff closing).1 hfirst, fun l hl hcloses => ?_⟩
  have hopen := hinside l hl
  rw [(hiff l).2 hcloses] at hopen
  cases hopen

/-- If none of the lines of a body closes the fence, the line behind them is the first that does. -/
theorem eq_of_first_closing {before inside after outside : List Bytes} {last closing : Bytes}
    (hsplit : before ++ last :: after = inside ++ closing :: outside)
    (hbefore : ∀ l ∈ before, ¬ ClosesFence 96 3 l) (hlast : ClosesFence 96 3 last)
    (hinside : ∀ l ∈ inside, ¬ ClosesFence 96 3 l) (hclosing : ClosesFence 96 3 closing) :
    inside = before ∧ outside = after := by
  induction before generalizing inside with
  | nil =>
    cases inside with
    | nil => exact ⟨rfl, (List.cons.inj hsplit).2.symm⟩
    | cons l inside =>
      obtain ⟨rfl, -⟩ := List.cons.inj hsplit
      exact absurd hlast (hinside _ List.mem_cons_self)
  | cons b before ih =>
    obtain ⟨hb, hbefore⟩ := List.forall_mem_cons.1 hbefore
    cases inside with
    | nil =>
      obtain ⟨rfl, -⟩ := List.cons.inj hsplit
      exact absurd hclosing hb
    | cons l inside =>
      obtain ⟨rfl, hrest⟩ := List.cons.inj hsplit
      obtain ⟨rfl, rfl⟩ := ih hrest hbefore (List.forall_mem_cons.1 hinside).2
      exact ⟨rfl, rfl⟩

theorem flatMap_unlines {ls : List Bytes} (hne : ls ≠ []) : ls.flatMap (· ++ [10]) = unlines ls ++ [10] := by
  induction ls with
  | nil => exact absurd rfl hne
  | cons l ls ih =>
    cases ls with
    | nil => simp [unlines, joinWith]
    | cons m ls =>
      have hjoin : unlines (l :: m :: ls) = l ++ [10] ++ unlines (m :: ls) := rfl
      rw [List.flatMap_cons, ih (List.cons_ne_nil m ls), hjoin, List.append_assoc, List.append_assoc,
        List.append_assoc]

theorem flatMap_lines (s : Bytes) : (lines s).flatMap (· ++ [10]) = s ++ [10] := by
  have hne : lines s ≠ [] := splitOn_ne_nil 10 s
  have hsplit : unlines (lines s) = s := joinWith_splitOn 10 s
  rw [flatMap_unlines hne, hsplit]

theorem readAsListing_fencedListing {label caption fence body : Bytes} (hlabel : Label.isKey label = true)
    (hfence : ∀ c ∈ fence, isLetter c = true) :
    ReadAsListing (fencedListing label caption fence body) caption (fenceLine label fence)
      (fenceInfo label fence) body where
  lines := lines_fencedListing hlabel hfence
  opens := fence?_fenceLine hlabel hfence
  caption := by
    intro b rest hframes hleaf hcaption
    have hletter : isLetter 76 = true := by decide
    have hsingle : 10 ∉ bytes "Listing: " ++ caption := by
      rw [List.mem_append, not_or]
      exact ⟨by decide, hcaption⟩
    have hlines : Text.lines (fencedListing label caption fence body) = _ := lines_fencedListing hlabel hfence
    obtain ⟨more, hmore⟩ : ∃ more, bytes "Listing: " ++ caption = 76 :: more := ⟨_, rfl⟩
    rw [hmore] at hsingle hlines ⊢
    have hparagraph := Builder.line_text hframes hleaf hletter hsingle [10] [10]
    rw [hlines, Text.lines, splitOn_of_notMem hsingle, ← hparagraph]
    simp only [List.append_assoc, List.cons_append, List.nil_append]
    rfl
  code := by
    intro b rest hframes hleaf
    have hmarks : bytes "```" ∈ lines body ++ bytes "```" :: rest := by simp
    obtain ⟨inside, closing, outside, hsplit, hclosing, hinside⟩ :=
      exists_closing _ ⟨_, hmarks, closesFence_marks⟩
    refine ⟨inside, closing, outside, hsplit, hclosing, ?_, ?_, ?_⟩
    · rw [hsplit]
      exact Builder.lines_fenced hframes hleaf (fence?_fenceLine hlabel hfence) hinside hclosing
    · rintro ⟨-, rfl⟩
      rw [List.append_cons, List.append_cons inside] at hsplit
      have hinit := List.append_cancel_right hsplit
      rw [(List.append_inj' hinit rfl).1]
      exact hinside
    · intro hopen
      obtain ⟨rfl, rfl⟩ := eq_of_first_closing hsplit hopen closesFence_marks hinside hclosing
      exact ⟨flatMap_lines body, rfl⟩

/-- **A listing is read as it was extracted**, and the text behind it as text, if and only if no line of it
closes the fence. -/
theorem listing_fenced {s : Setting} {path url output : Bytes} {r : ListingRequest} {d d' : Draft}
    {trace : List Exchange} (h : (listing s path url r).Runs d trace (.ok (output, d'))) :
    ∃ source body, s.tree.read path = .ok source ∧
      Listing.extract source
        { lines := r.lines, labels := r.labels, options := r.options
          language := Listing.Language.ofPath path } = .ok body ∧
      ∃ opening info, ReadAsListing output (listingCaption r.caption url) opening info body := by
  obtain ⟨source, body, hsource, hbody, hkey, rfl⟩ := exists_of_runs_listing h
  exact ⟨source, body, hsource, hbody, _, _,
    readAsListing_fencedListing hkey (isLetter_of_mem_fence path)⟩

/-- A book with notes that hold a fenced block of their own. -/
def notesSetting : Setting where
  tree :=
    { entries :=
        [([bytes "b"], .directory),
          ([bytes "b", bytes "notes.md"], .file (bytes "# Notes\n\n```\nrun\n```\n"))] }
  resolver := { root := bytes "/b" }

def notesRequest : ListingRequest where
  label := bytes "notes"
  caption := bytes "Notes"
  lines := []
  labels := []
  options := []

/-- The fence of the notes closes the fence of their listing, of which only the beginning is read as code. -/
theorem listing_fenced_notes :
    ∃ trace output d', (listing notesSetting (bytes "/b/notes.md") [] notesRequest).Runs {} trace
        (.ok (output, d')) ∧
      ∃ source body, notesSetting.tree.read (bytes "/b/notes.md") = .ok source ∧
        Listing.extract source { language := Listing.Language.ofPath (bytes "/b/notes.md") } = .ok body ∧
        (∃ opening info, ReadAsListing output (bytes "Notes.") opening info body) ∧
        bytes "```" ∈ lines body ∧ ClosesFence 96 3 (bytes "```") := by
  have hruns := Script.runs_run (fun _ _ => .error .other) []
    (listing notesSetting (bytes "/b/notes.md") [] notesRequest {}).run {}
  have hok : (((listing notesSetting (bytes "/b/notes.md") [] notesRequest {}).run.run
      (fun _ _ => .error .other) [] {}).1.toOption).isSome = true := by decide +kernel
  obtain ⟨⟨output, d'⟩, hsome⟩ := Option.isSome_iff_exists.1 hok
  rw [eq_ok_of_toOption hsome] at hruns
  obtain ⟨source, body, hsource, hbody, hread⟩ := listing_fenced hruns
  have htext : notesSetting.tree.read (bytes "/b/notes.md") = .ok (bytes "# Notes\n\n```\nrun\n```\n") := rfl
  obtain rfl := Except.ok.inj (htext.symm.trans hsource)
  have hlisting : Listing.extract (bytes "# Notes\n\n```\nrun\n```\n")
      { language := Listing.Language.ofPath (bytes "/b/notes.md") } =
        .ok (bytes "# Notes\n\n```\nrun\n```") := by decide +kernel
  obtain rfl := Except.ok.inj (hlisting.symm.trans hbody)
  exact ⟨_, output, d', hruns, _, _, hsource, hbody, hread, by decide, closesFence_marks⟩

end Bindery.Expansion
