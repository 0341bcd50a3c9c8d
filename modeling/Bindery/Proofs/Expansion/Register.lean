import Bindery.Proofs.Expansion.Ledger

/-!
# What directives register

A directive that takes a label is numbered when it is done, and a definition asks for the title of its
type first. `Enrolled` says what a conversation adds to a draft, whatever texts the pass reads: the record
of references and definitions, one entry for each labelled directive, and the titles that were given.
Every directive but an inclusion enrolls itself (`enrolled_effect`), and prints some of its arguments one
after the other.
-/

namespace Bindery.Expansion

open Text

/-! ## Labels and titles of a conversation -/

/-- The kind and the key under which a directive is numbered. -/
def Performance.label? (p : Performance) : Option (Bytes × Bytes) :=
  match p.directive with
  | .code | .relativeCode => some ("lst", trim (p.arg 0))
  | .gitCode => some ("lst", trim (p.arg 1))
  | .figure => some ("fig", trim (p.arg 0))
  | .definition => some (trim (p.arg 0), trim (p.arg 1))
  | .input | .reference | .metadata => none

/-- An entry has kind and key of a directive. -/
def Performance.Labels (p : Performance) (e : Label.Entry) : Prop := p.label? = some (e.kind, e.key)

/-- The directives that took a label, in the order in which they were done. -/
def labelled (trace : List Exchange) : List Performance :=
  (performances trace).filter (·.label?.isSome)

def definitionsLike (type : Bytes) (trace : List Exchange) : List Performance :=
  (defining trace).filter fun p => trim (p.arg 0) == type

/-- The title that an exchange gives for a type of definitions. -/
def Exchange.title? (type : Bytes) : Exchange → Option Bytes
  | ⟨.definitionTitle asked, answer⟩ => if asked = type then some answer else none
  | _ => none

/-- The titles that were given for a type of definitions, in order. -/
def titlesGiven (type : Bytes) (trace : List Exchange) : List Bytes :=
  trace.filterMap (Exchange.title? type)

/-- The title of a type after some were given for it: empty ones change nothing. -/
def titleAfter (title : Bytes) (given : List Bytes) : Bytes :=
  given.foldl (fun title new => if new.isEmpty then title else new) title

def Performance.Shows (p : Performance) (title : Bytes) (number : Nat) : Prop :=
  p.output = bytes "[**" ++ title ++ bytes " " ++ ofNat number ++ bytes "**]\x7b#def:"
    ++ trim (p.arg 1) ++ bytes "\x7d: " ++ trim (p.arg 2)

section Append

variable (type : Bytes) (first rest : List Exchange)

theorem labelled_append : labelled (first ++ rest) = labelled first ++ labelled rest := by
  rw [labelled, performances_append, List.filter_append]
  rfl

theorem definitionsLike_append :
    definitionsLike type (first ++ rest) = definitionsLike type first ++ definitionsLike type rest := by
  rw [definitionsLike, defining_append, List.filter_append]
  rfl

theorem titlesGiven_append :
    titlesGiven type (first ++ rest) = titlesGiven type first ++ titlesGiven type rest :=
  List.filterMap_append

theorem titleAfter_append (title : Bytes) (given more : List Bytes) :
    titleAfter title (given ++ more) = titleAfter (titleAfter title given) more :=
  List.foldl_append

end Append

theorem title_setTitle (r : Label.Registry) (kind title type : Bytes) :
    (r.setTitle kind title).title type =
      titleAfter (r.title type) (if kind = type then [title] else []) := by
  cases title with
  | nil =>
    have hsame : r.setTitle kind [] = r := rfl
    rw [hsame]
    split <;> rfl
  | cons c title =>
    have hset : (r.setTitle kind (c :: title)).titles = (kind, c :: title) :: r.titles := rfl
    rw [Label.Registry.title, hset]
    by_cases hkind : kind = type
    · rw [if_pos hkind, hkind, List.lookup_cons_self]
      rfl
    · have hother : (type == kind) = false := beq_false_of_ne (Ne.symm hkind)
      rw [if_neg hkind, List.lookup_cons, hother]
      rfl

/-! ## What a conversation adds -/

/-- A conversation in which nothing is done and no title is given. -/
def Idle (trace : List Exchange) : Prop :=
  performances trace = [] ∧ ∀ type, titlesGiven type trace = []

theorem Idle.append {first rest : List Exchange} (h : Idle first) (h' : Idle rest) :
    Idle (first ++ rest) := by
  refine ⟨?_, fun type => ?_⟩
  · rw [performances_append, h.1, h'.1]
    rfl
  · rw [titlesGiven_append, h.2, h'.2]
    rfl

theorem idle_nil : Idle [] := ⟨rfl, fun _ => rfl⟩

/-- What a conversation adds to a draft: the record, an entry for each labelled directive, and titles. A
definition shows the title after those that were given up to it, and the number of its entry. -/
structure Enrolled (d : Draft) (trace : List Exchange) (d' : Draft) : Prop where
  recorded : Recorded d trace d'
  entries : ∃ es, d'.registry.entries = d.registry.entries ++ es ∧
    List.Forall₂ (fun e p => Performance.Labels p e) es (labelled trace)
  counted : ∀ type, (definitionsLike type trace).length = (titlesGiven type trace).length
  shown : ∀ (type : Bytes) (k : Nat) (q : Performance), (definitionsLike type trace)[k]? = some q →
    ∃ e ∈ d'.registry.definitions, e.key = trim (q.arg 1) ∧
      q.Shows (titleAfter (d.registry.title type) ((titlesGiven type trace).take (k + 1))) e.number
  title : ∀ type, d'.registry.title type =
    titleAfter (d.registry.title type) (titlesGiven type trace)

theorem Recorded.mem_definitions {d d' : Draft} {trace : List Exchange} (h : Recorded d trace d')
    {e : Label.Entry} (he : e ∈ d.registry.definitions) : e ∈ d'.registry.definitions := by
  obtain ⟨entries, hentries, -⟩ := h.definitions
  rw [hentries]
  exact List.mem_append_left _ he

theorem Enrolled.trans {d d' d'' : Draft} {first rest : List Exchange} (h : Enrolled d first d')
    (h' : Enrolled d' rest d'') : Enrolled d (first ++ rest) d'' := by
  obtain ⟨es, hes, hlabels⟩ := h.entries
  obtain ⟨es', hes', hlabels'⟩ := h'.entries
  refine ⟨h.recorded.trans h'.recorded, ⟨es ++ es', ?_, ?_⟩, ?_, ?_, ?_⟩
  · rw [hes', hes, List.append_assoc]
  · rw [labelled_append]
    exact List.rel_append hlabels hlabels'
  · intro type
    rw [definitionsLike_append, titlesGiven_append, List.length_append, List.length_append,
      h.counted, h'.counted]
  · intro type k q hq
    rw [definitionsLike_append] at hq
    rw [titlesGiven_append]
    by_cases hk : k < (definitionsLike type first).length
    · rw [List.getElem?_append_left hk] at hq
      obtain ⟨e, he, hkey, hshows⟩ := h.shown type k q hq
      refine ⟨e, h'.recorded.mem_definitions he, hkey, ?_⟩
      rw [h.counted] at hk
      rwa [List.take_append_of_le_length hk]
    · rw [List.getElem?_append_right (Nat.not_lt.1 hk)] at hq
      obtain ⟨e, he, hkey, hshows⟩ := h'.shown type _ q hq
      refine ⟨e, he, hkey, ?_⟩
      rw [h.counted] at hk hshows
      rw [h.title, ← titleAfter_append] at hshows
      have htake : (titlesGiven type first ++ titlesGiven type rest).take (k + 1) =
          titlesGiven type first ++
            (titlesGiven type rest).take (k - (titlesGiven type first).length + 1) := by
        rw [List.take_append, List.take_of_length_le (by omega)]
        congr 2
        omega
      rwa [htake]
  · intro type
    rw [h'.title, h.title, ← titleAfter_append, titlesGiven_append]

/-- A step that neither does anything nor asks for a title, and leaves labels and references alone. -/
theorem enrolled_of_idle {d d' : Draft} {trace : List Exchange} (h : Idle trace)
    (hpending : d'.pending = d.pending) (hregistry : d'.registry = d.registry) :
    Enrolled d trace d' := by
  have hlabelled : labelled trace = [] := by
    rw [labelled, h.1]
    rfl
  have hlike : ∀ type, definitionsLike type trace = [] := by
    intro type
    rw [definitionsLike, defining, h.1]
    rfl
  refine ⟨?_, ⟨[], ?_, ?_⟩, ?_, ?_, ?_⟩
  · refine recorded_of_silent ⟨h.1, hpending, by rw [hregistry], by rw [hregistry], ?_⟩
    rw [hregistry]
    exact id
  · rw [hregistry, List.append_nil]
  · rw [hlabelled]
    exact .nil
  · intro type
    rw [hlike, h.2]
    rfl
  · intro type k q hq
    rw [hlike] at hq
    cases hq
  · intro type
    rw [hregistry, h.2]
    rfl

/-! ## Labelled directives -/

section Closing

variable {p : Performance} {d : Draft}

theorem definitionsLike_closing (hdirective : p.directive ≠ .definition) (type : Bytes) :
    definitionsLike type (closing p) = [] := by
  simp [definitionsLike, defining, performances_closing, hdirective]

theorem labelled_closing_none (h : p.label? = none) : labelled (closing p) = [] := by
  simp [labelled, performances_closing, h]

theorem labelled_closing_some {label : Bytes × Bytes} (h : p.label? = some label) :
    labelled (closing p) = [p] := by
  simp [labelled, performances_closing, h]

theorem enrolled_closing (hlabel : p.label? = none) (href : p.directive ≠ .reference) (d : Draft) :
    Enrolled d (closing p) d := by
  have hdef : p.directive ≠ .definition := by
    intro heq
    simp [Performance.label?, heq] at hlabel
  refine ⟨recorded_closing href hdef d, ⟨[], ?_, ?_⟩, ?_, ?_, fun _ => rfl⟩
  · rw [List.append_nil]
  · rw [labelled_closing_none hlabel]
    exact .nil
  · intro type
    rw [definitionsLike_closing hdef]
    rfl
  · intro type k q hq
    rw [definitionsLike_closing hdef] at hq
    cases hq

theorem enrolled_reference (hdirective : p.directive = .reference)
    (houtput : p.output = mark d.pending.length) :
    Enrolled d (closing p) { d with pending := d.pending ++ [p.pending] } := by
  have hlabel : p.label? = none := by simp [Performance.label?, hdirective]
  have hdef : p.directive ≠ .definition := by simp [hdirective]
  refine ⟨recorded_reference hdirective houtput, ⟨[], ?_, ?_⟩, ?_, ?_, fun _ => rfl⟩
  · rw [List.append_nil]
  · rw [labelled_closing_none hlabel]
    exact .nil
  · intro type
    rw [definitionsLike_closing hdef]
    rfl
  · intro type k q hq
    rw [definitionsLike_closing hdef] at hq
    cases hq

theorem entries_setTitle (r : Label.Registry) (kind title : Bytes) :
    (r.setTitle kind title).entries = r.entries := by
  rw [Label.Registry.setTitle]
  split <;> rfl

theorem enrolled_builtin {d' : Draft} {kind key : Bytes} {number : Nat}
    (hlabel : p.label? = some (kind, key)) (hdirective : p.directive ≠ .definition)
    (hkind : Label.isBuiltin kind = true) (hpending : d'.pending = d.pending)
    (hdefine : d.registry.define kind key = .ok (number, d'.registry)) :
    Enrolled d (closing p) d' := by
  have href : p.directive ≠ .reference := by
    intro heq
    simp [Performance.label?, heq] at hlabel
  have hrecorded : Recorded d [] d' := recorded_of_silent
    ⟨rfl, hpending, Label.Registry.definitions_define_builtin hdefine hkind,
      Label.Registry.titles_define hdefine, fun hsound => hsound.define hdefine⟩
  refine ⟨hrecorded.trans (recorded_closing href hdirective d'), ⟨_, Label.Registry.entries_define hdefine, ?_⟩,
    ?_, ?_, ?_⟩
  · rw [labelled_closing_some hlabel]
    exact .cons hlabel .nil
  · intro type
    rw [definitionsLike_closing hdirective]
    rfl
  · intro type k q hq
    rw [definitionsLike_closing hdirective] at hq
    cases hq
  · intro type
    rw [Label.Registry.title, Label.Registry.titles_define hdefine]
    rfl

theorem enrolled_definition (hdirective : p.directive = .definition) {title : Bytes} {number : Nat}
    {registry : Label.Registry} (hbuiltin : Label.isBuiltin (trim (p.arg 0)) = false)
    (hdefine : (d.registry.setTitle (trim (p.arg 0)) title).define (trim (p.arg 0)) (trim (p.arg 1)) =
      .ok (number, registry)) (hshows : p.Shows (registry.title (trim (p.arg 0))) number) :
    Enrolled d (⟨.definitionTitle (trim (p.arg 0)), title⟩ :: closing p) { d with registry } := by
  have hlabel : p.label? = some (trim (p.arg 0), trim (p.arg 1)) := by
    simp [Performance.label?, hdirective]
  have hgiven : ∀ type, titlesGiven type (⟨.definitionTitle (trim (p.arg 0)), title⟩ :: closing p) =
      if trim (p.arg 0) = type then [title] else [] := by
    intro type
    by_cases htype : trim (p.arg 0) = type <;>
      simp [titlesGiven, Exchange.title?, closing, htype]
  have hlike : ∀ type,
      definitionsLike type (⟨.definitionTitle (trim (p.arg 0)), title⟩ :: closing p) =
        if trim (p.arg 0) = type then [p] else [] := by
    intro type
    change ((performances (closing p)).filter _).filter _ = _
    by_cases htype : trim (p.arg 0) = type <;> simp [performances_closing, hdirective, htype]
  have htitle : ∀ type, registry.title type = titleAfter (d.registry.title type)
      (titlesGiven type (⟨.definitionTitle (trim (p.arg 0)), title⟩ :: closing p)) := by
    intro type
    rw [hgiven, ← title_setTitle, Label.Registry.title, Label.Registry.title,
      Label.Registry.titles_define hdefine]
  have hentries := Label.Registry.entries_define hdefine
  rw [entries_setTitle] at hentries
  refine ⟨recorded_definition hdirective hbuiltin hdefine ⟨_, hshows⟩, ⟨_, hentries, ?_⟩, ?_, ?_,
    htitle⟩
  · change List.Forall₂ _ _ (labelled (closing p))
    rw [labelled_closing_some hlabel]
    exact .cons hlabel .nil
  · intro type
    rw [hlike, hgiven]
    split <;> rfl
  · intro type k q hq
    rw [hlike] at hq
    split at hq
    · next htype =>
      subst htype
      obtain ⟨hk, rfl⟩ := List.getElem?_eq_some_iff.1 hq
      have hk : k = 0 := by simpa using hk
      subst hk
      have hmem := Label.Registry.definitions_define hdefine hbuiltin
      refine ⟨_, by rw [hmem]; exact List.mem_append_right _ List.mem_cons_self, rfl, ?_⟩
      rw [hgiven, if_pos rfl, List.take_of_length_le (by simp)]
      rw [htitle, hgiven, if_pos rfl] at hshows
      exact hshows
    · cases hq

end Closing

/-! ## Steps of directives -/

/-- The conduct of steps that neither do anything nor ask for a title, and leave labels and references
alone. -/
def idling : Conduct where
  given _ := True
  ok d trace d' := Idle trace ∧ d'.pending = d.pending ∧ d'.registry = d.registry
  fail _ _ _ := True
  refl _ := ⟨idle_nil, rfl, rfl⟩
  trans h h' := ⟨h.1.append h'.1, h'.2.1.trans h.2.1, h'.2.2.trans h.2.2⟩
  fail_trans _ _ := trivial

theorem idling_modify {f : Draft → Draft}
    (h : ∀ d, (f d).pending = d.pending ∧ (f d).registry = d.registry) :
    idling.Always (modify f : Pass PUnit) :=
  Conduct.always_modify fun d => ⟨idle_nil, h d⟩

theorem idling_projectCheckout (s : Setting) : idling.Always s.projectCheckout :=
  Conduct.always_projectCheckout s (fun _ => ⟨idle_nil, rfl, rfl⟩)
    fun _ _ => ⟨⟨rfl, fun _ => rfl⟩, rfl, rfl⟩

theorem idling_metadata (s : Setting) (key : Bytes) : idling.Always (metadata s key) := by
  refine Conduct.always_metadata s key (fun _ _ _ _ => trivial) (idling_projectCheckout s) fun key => ?_
  refine Conduct.Always.bind (Conduct.always_ask fun _ _ _ => ⟨⟨rfl, fun _ => rfl⟩, rfl, rfl⟩) ?_
  exact fun _ => Conduct.always_require fun _ _ _ => trivial

theorem idling_declareMetadata (s : Setting) (path text : Bytes) :
    idling.Always (declareMetadata s path text) := by
  rw [declareMetadata]
  split
  · exact Conduct.always_throw fun _ => trivial
  · exact Conduct.always_pure _
  · exact Conduct.always_ask fun _ _ _ => ⟨⟨rfl, fun _ => rfl⟩, rfl, rfl⟩

/-- Steps that number one label of a built-in kind. -/
structure Enters (kind key : Bytes) (d : Draft) (trace : List Exchange) (d' : Draft) : Prop where
  idle : Idle trace
  pending : d'.pending = d.pending
  defined : ∃ number, d.registry.define kind key = .ok (number, d'.registry)

theorem Enters.of_idling {kind key : Bytes} {d d' d'' : Draft} {first rest : List Exchange}
    (h : idling.ok d first d') (h' : Enters kind key d' rest d'') :
    Enters kind key d (first ++ rest) d'' := by
  obtain ⟨hidle, hpending, hregistry⟩ := h
  refine ⟨hidle.append h'.idle, h'.pending.trans hpending, ?_⟩
  rw [← hregistry]
  exact h'.defined

theorem runs_define {kind key : Bytes} {d d' : Draft} {trace : List Exchange} {number : Nat}
    (h : (define kind key).Runs d trace (.ok (number, d'))) :
    Enters kind key d trace d' := by
  have h := Pass.runs_get_bind.1 h
  split at h
  · obtain ⟨-, hr⟩ := Script.runs_done.1 h
    cases hr
  · next registry hdefine =>
    obtain ⟨rfl, hr⟩ := Script.runs_done.1 h
    cases hr
    exact ⟨idle_nil, rfl, _, hdefine⟩

/-- A text that is made of others in their order: more text may stand between them, and white space may
be cut at the ends of what is written. -/
inductive Composed : List Bytes → Bytes → Prop
  | text (text : Bytes) : Composed [] text
  | piece (piece : Bytes) : Composed [piece] piece
  | append {pieces more : List Bytes} {text rest : Bytes} (htext : Composed pieces text)
      (hrest : Composed more rest) : Composed (pieces ++ more) (text ++ rest)
  | trim {pieces : List Bytes} {text : Bytes} (htext : Composed pieces text) :
      Composed pieces (trim text)

namespace Composed

variable {pieces : List Bytes} {text : Bytes}

theorem before (h : Composed pieces text) (front : Bytes) : Composed pieces (front ++ text) :=
  .append (.text front) h

theorem after (h : Composed pieces text) (back : Bytes) : Composed pieces (text ++ back) := by
  simpa using Composed.append h (.text back)

end Composed

theorem composed_listingCaption (caption url : Bytes) :
    Composed [caption] (listingCaption caption url) := by
  have hcaption : Composed [caption] (trim caption) := .trim (.piece caption)
  simp only [listingCaption]
  split <;> split
  · exact .trim hcaption
  · exact .trim (hcaption.after _)
  · exact .trim (((hcaption.after _).after _).after _)
  · exact .trim ((((hcaption.after _).after _).after _).after _)

theorem composed_fencedListing (label caption url fence body : Bytes) :
    Composed [caption] (fencedListing label (listingCaption caption url) fence body) := by
  have hcaption := (composed_listingCaption caption url).before (bytes "Listing: ")
  rw [fencedListing]
  exact ((((((hcaption.after _).after _).after _).after _).after _).after _)

section Steps

variable {s : Setting} {d d' : Draft} {trace : List Exchange} {output : Bytes}

theorem runs_listing {path url : Bytes} {r : ListingRequest}
    (h : (listing s path url r).Runs d trace (.ok (output, d'))) :
    Enters "lst" (trim r.label) d trace d' ∧ Composed [r.caption] output := by
  rw [listing] at h
  obtain ⟨source, -, h⟩ := Pass.runs_require_bind_ok.1 h
  obtain ⟨rest, rfl, hsourced⟩ := Pass.runs_note_bind.1 h
  obtain ⟨body, -, hbody⟩ := Pass.runs_require_bind_ok.1 hsourced
  obtain ⟨number, d₁, first, rest, rfl, hdefine, hpure⟩ := Pass.runs_bind_ok.1 hbody
  obtain ⟨rfl, hout⟩ := Pass.runs_pure.1 hpure
  cases hout
  have hsourced : idling.ok d [⟨.note (.sourced path source), ()⟩] d :=
    ⟨⟨rfl, fun _ => rfl⟩, rfl, rfl⟩
  have hdefined := Enters.of_idling hsourced (runs_define hdefine)
  refine ⟨?_, composed_fencedListing _ _ _ _ _⟩
  simpa using hdefined

theorem runs_localListing {dir file : Bytes} {r : ListingRequest}
    (h : (localListing s dir file r).Runs d trace (.ok (output, d'))) :
    Enters "lst" (trim r.label) d trace d' ∧ Composed [r.caption] output := by
  rw [localListing] at h
  obtain ⟨path, -, h⟩ := Pass.runs_require_bind_ok.1 h
  obtain ⟨checkout, d₁, first, rest, rfl, hfirst, h⟩ := Pass.runs_bind_ok.1 h
  obtain ⟨henters, hout⟩ := runs_listing h
  have hidle := idling_projectCheckout s d first _ hfirst fun _ _ => trivial
  exact ⟨.of_idling hidle.1 henters, hout⟩

theorem runs_repositoryListing {mnemonic file : Bytes} {r : ListingRequest}
    (h : (repositoryListing s mnemonic file r).Runs d trace (.ok (output, d'))) :
    Enters "lst" (trim r.label) d trace d' ∧ Composed [r.caption] output := by
  simp only [repositoryListing] at h
  split at h
  · obtain ⟨-, hr⟩ := Script.runs_done.1 h
    cases hr
  · obtain ⟨answer, rest, rfl, hanswered⟩ := Pass.runs_ask_bind.1 h
    obtain ⟨snapshot, -, hfound⟩ := Pass.runs_require_bind_ok.1 hanswered
    obtain ⟨path, -, hlisting⟩ := Pass.runs_require_bind_ok.1 hfound
    obtain ⟨henters, hout⟩ := runs_listing hlisting
    have hasked : idling.ok d [⟨.snapshot (trim mnemonic), answer⟩] d :=
      ⟨⟨rfl, fun _ => rfl⟩, rfl, rfl⟩
    exact ⟨.of_idling hasked henters, hout⟩

theorem runs_figure {dir label caption file attributes : Bytes}
    (h : (figure s dir label caption file attributes).Runs d trace (.ok (output, d'))) :
    Enters "fig" (trim label) d trace d' ∧ Composed [caption, attributes] output := by
  rw [figure] at h
  obtain ⟨path, -, h⟩ := Pass.runs_require_bind_ok.1 h
  obtain ⟨shown, -, h⟩ := Pass.runs_require_bind_ok.1 h
  obtain ⟨number, d₁, first, rest, rfl, hdefine, h⟩ := Pass.runs_bind_ok.1 h
  have h := Pass.runs_modify_bind.1 h
  obtain ⟨rfl, hout⟩ := Pass.runs_pure.1 h
  cases hout
  refine ⟨?_, ?_⟩
  · rw [List.append_nil]
    obtain ⟨hidle, hpending, hdefined⟩ := runs_define hdefine
    refine ⟨hidle, ?_, ?_⟩
    · split <;> exact hpending
    · split <;> exact hdefined
  · have hcaption : Composed [caption] (bytes "![" ++ trim caption ++ bytes "](" ++
        resourceTarget shown ++ bytes ")\x7b") :=
      ((((Composed.piece caption).trim.before _).after _).after _).after _
    have hattributes : Composed [attributes] (bytes "#fig:" ++ trim label ++
        (if (trim attributes).isEmpty then [] else bytes " " ++ trim attributes) ++
        bytes "\x7d") := by
      refine Composed.after (Composed.before ?_ _) _
      split
      · next hempty =>
        have hnil : trim attributes = [] := List.isEmpty_iff.1 hempty
        exact hnil ▸ (Composed.piece attributes).trim
      · exact (Composed.piece attributes).trim.before _
    simpa using hcaption.append hattributes

end Steps

/-! ## Effects -/

/-- **Directives enroll themselves**, inclusions apart, and print arguments in their order. -/
theorem enrolled_effect {s : Setting} {path : Bytes} {input : Bytes → Pass Bytes}
    {directive : Directive} {args : List Bytes} {line : Nat} {d d' : Draft} {first : List Exchange}
    {output : Bytes} (hdirective : directive ≠ .input)
    (h : (effect s path input directive args line).Runs d first (.ok (output, d'))) :
    performances first = [] ∧
      Enrolled d (first ++ closing { path, line, directive, args, output }) d' ∧
      Composed (directive.printed.map fun i => args[i]?.getD []) output := by
  have hbuiltin : ∀ {kind key : Bytes}, Enters kind key d first d' →
      Label.isBuiltin kind = true → directive ≠ .definition →
      Performance.label? { path, line, directive, args, output } = some (kind, key) →
      performances first = [] ∧
        Enrolled d (first ++ closing { path, line, directive, args, output }) d' := by
    intro kind key henters hkind hdefinition hlabel
    obtain ⟨number, hdefine⟩ := henters.defined
    refine ⟨henters.idle.1, (enrolled_of_idle henters.idle rfl rfl).trans ?_⟩
    exact enrolled_builtin hlabel hdefinition hkind henters.pending hdefine
  cases directive with
  | input => exact absurd rfl hdirective
  | code =>
    obtain ⟨henters, hout⟩ := runs_localListing h
    obtain ⟨hnone, henrolled⟩ := hbuiltin henters (by decide) (by decide) rfl
    exact ⟨hnone, henrolled, hout⟩
  | relativeCode =>
    obtain ⟨henters, hout⟩ := runs_localListing h
    obtain ⟨hnone, henrolled⟩ := hbuiltin henters (by decide) (by decide) rfl
    exact ⟨hnone, henrolled, hout⟩
  | gitCode =>
    obtain ⟨henters, hout⟩ := runs_repositoryListing h
    obtain ⟨hnone, henrolled⟩ := hbuiltin henters (by decide) (by decide) rfl
    exact ⟨hnone, henrolled, hout⟩
  | figure =>
    obtain ⟨henters, hout⟩ := runs_figure h
    obtain ⟨hnone, henrolled⟩ := hbuiltin henters (by decide) (by decide) rfl
    exact ⟨hnone, henrolled, hout⟩
  | definition =>
    obtain ⟨title, number, registry, rfl, hkind, hdefine, rfl, houtput⟩ := runs_definition h
    refine ⟨rfl, ?_, ?_⟩
    · exact enrolled_definition (p := ⟨path, line, .definition, args, output⟩) rfl hkind hdefine houtput
    · rw [houtput]
      exact (Composed.piece _).trim.before _
  | reference =>
    obtain ⟨rfl, rfl, rfl⟩ := runs_reference h
    exact ⟨rfl, enrolled_reference rfl rfl, .text _⟩
  | metadata =>
    obtain ⟨⟨hidle, hpending, hregistry⟩, -⟩ :=
      idling_metadata s _ d first _ h fun _ _ => trivial
    refine ⟨hidle.1, ?_, .text _⟩
    exact (enrolled_of_idle hidle hpending hregistry).trans (enrolled_closing rfl (by simp) d')

end Bindery.Expansion
