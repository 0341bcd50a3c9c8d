import Bindery.Expansion.Script
import Bindery.Proofs.Metadata.Store
import Bindery.Proofs.Repository.Cache

/-!
# What a language sees of the services

The passes of a build share the metadata store and the repository cache. What a pass can see of these
services is the layer of its own language, the default layer, and the slots that its own requests lead
to. `Services.Agree` says that two states of the services look alike to a language. Answering a pass
keeps them alike (`Agree.own`), and so does answering another one (`Agree.other`), as long as two
languages do not share a slot for different repositories. Keys of slots are written with a NUL byte
between mnemonic and address, so that they can only share one if a mnemonic holds a NUL byte.
-/

namespace Bindery.Expansion

open Repository (Fetcher Cache)

namespace Services

/-- Two states of the services that look alike to a language. -/
structure Agree (fetch : Fetcher) (lang : Bytes) (s t : Services) : Prop where
  base : s.store.base = t.store.base
  layer : s.store.layer lang = t.store.layer lang
  refs : s.cache.refs = t.cache.refs
  held : ∀ m ref, s.cache.reference? m = some ref →
    s.cache.held fetch m (ref.urlFor lang) = t.cache.held fetch m (ref.urlFor lang)

namespace Agree

variable {fetch : Fetcher} {lang rival : Bytes} {s t : Services}

theorem refl (s : Services) : Agree fetch lang s s := ⟨rfl, rfl, rfl, fun _ _ _ => rfl⟩

theorem get (h : Agree fetch lang s t) (mnemonic : Bytes) :
    (s.cache.get fetch mnemonic lang).1 = (t.cache.get fetch mnemonic lang).1 ∧
      Agree fetch lang { s with cache := (s.cache.get fetch mnemonic lang).2 }
        { t with cache := (t.cache.get fetch mnemonic lang).2 } := by
  cases href : s.cache.reference? mnemonic with
  | none =>
    have href' : t.cache.reference? mnemonic = none := Cache.reference?_congr h.refs mnemonic ▸ href
    rw [Cache.get_of_undeclared fetch href, Cache.get_of_undeclared fetch href']
    exact ⟨rfl, h⟩
  | some ref =>
    have href' : t.cache.reference? mnemonic = some ref :=
      Cache.reference?_congr h.refs mnemonic ▸ href
    obtain ⟨hanswer, hrefs, hheld⟩ := Cache.get_of_reference fetch href lang
    obtain ⟨hanswer', hrefs', hheld'⟩ := Cache.get_of_reference fetch href' lang
    have hsame := h.held mnemonic ref href
    refine ⟨hanswer.trans (hsame.trans hanswer'.symm), h.base, h.layer, ?_, fun m r hr => ?_⟩
    · exact hrefs.trans (h.refs.trans hrefs'.symm)
    · rw [Cache.reference?_congr hrefs] at hr
      rw [hheld, hheld', hsame, h.held m r hr]

/-- **A pass is answered alike** in states that look alike to it, and they go on to. -/
theorem own (h : Agree fetch lang s t) (hlang : lang ≠ []) (request : Request) :
    (s.answer fetch lang request).1 = (t.answer fetch lang request).1 ∧
      Agree fetch lang (s.answer fetch lang request).2 (t.answer fetch lang request).2 := by
  cases request with
  | merge block =>
    refine ⟨rfl, ?_, ?_, h.refs, h.held⟩
    · have hs := s.store.layer_merge_of_ne block hlang.symm
      have ht := t.store.layer_merge_of_ne block hlang.symm
      exact hs.trans (h.base.trans ht.symm)
    · simp only [answer, Metadata.Store.layer_merge_self, h.layer]
  | text key => exact ⟨Metadata.Store.string_congr h.base h.layer key, h⟩
  | definitionTitle type => exact ⟨Metadata.Store.definitionTitle_congr h.base h.layer type, h⟩
  | snapshot mnemonic => exact h.get mnemonic
  | count event => exact ⟨rfl, h.base, h.layer, h.refs, h.held⟩
  | log record => exact ⟨rfl, h.base, h.layer, h.refs, h.held⟩
  | note event => exact ⟨rfl, h⟩

/-- **Answering another pass** changes nothing that a language sees. -/
theorem other (h : Agree fetch lang s t) (hne : lang ≠ rival) (hrival : rival ≠ [])
    (hapart : s.cache.Apart fetch lang rival) (request : Request) :
    Agree fetch lang (s.answer fetch rival request).2 t := by
  cases request with
  | merge block =>
    refine ⟨?_, ?_, h.refs, h.held⟩
    · exact (s.store.layer_merge_of_ne block hrival.symm).trans h.base
    · exact (s.store.layer_merge_of_ne block hne).trans h.layer
  | text key => exact h
  | definitionTitle type => exact h
  | snapshot mnemonic =>
    change Agree fetch lang { s with cache := (s.cache.get fetch mnemonic rival).2 } t
    cases href : s.cache.reference? mnemonic with
    | none =>
      rw [Cache.get_of_undeclared fetch href]
      exact h
    | some ref =>
      obtain ⟨-, hrefs, hheld⟩ := Cache.get_of_reference fetch href rival
      refine ⟨h.base, h.layer, hrefs.trans h.refs, fun m r hr => ?_⟩
      rw [Cache.reference?_congr hrefs] at hr
      rw [hheld, ← h.held m r hr]
      split
      · next hkey =>
        -- The slot is shared: it holds an outcome already, or both would fetch the same one.
        rw [Cache.held, Cache.held, hkey]
        split
        · rfl
        · exact (hapart m mnemonic r ref hr href hkey).symm
      · rfl
  | count event => exact ⟨h.base, h.layer, h.refs, h.held⟩
  | log record => exact ⟨h.base, h.layer, h.refs, h.held⟩
  | note event => exact h

end Agree

theorem refs_answer (fetch : Fetcher) (lang : Bytes) (s : Services) (request : Request) :
    (s.answer fetch lang request).2.cache.refs = s.cache.refs := by
  cases request with
  | snapshot mnemonic =>
    change (s.cache.get fetch mnemonic lang).2.refs = s.cache.refs
    cases href : s.cache.reference? mnemonic with
    | none => rw [Cache.get_of_undeclared fetch href]
    | some ref => exact (Cache.get_of_reference fetch href lang).2.1
  | _ => rfl

end Services

end Bindery.Expansion
