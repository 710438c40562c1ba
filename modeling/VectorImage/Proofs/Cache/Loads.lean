import VectorImage.Cache.Script
import VectorImage.Proofs.Cache.Requests

/-!
The loads of a cache. A source is loaded when it gets an entry and when it is reloaded, and at no
other time; a handle that is answered is of the latest load of its source, until the source is
evicted or reloaded. A load that has been seen to come to something is seen so ever after.
-/

set_option autoImplicit false
set_option relaxedAutoImplicit false

namespace VectorImage

namespace ImageCache

variable {κ : Type} [BEq κ] [EquivBEq κ] [Described κ] {c : ImageCache κ} {key : κ}
  {handle : LoadHandle} {requests : List (CacheRequest κ)}

/-! What a run comes to. -/

theorem Current.serveAll (hc : c.Current) (requests : List (CacheRequest κ)) :
    (c.serveAll requests).Current := by
  induction requests generalizing c with
  | nil => exact hc
  | cons request requests ih => exact ih (hc.serves (c.event_serves request))

theorem Outdated.serveAll (hold : c.Outdated key handle) (requests : List (CacheRequest κ)) :
    (c.serveAll requests).Outdated key handle := by
  induction requests generalizing c with
  | nil => exact hold
  | cons request requests ih => exact ih (hold.serves (c.event_serves request))

end ImageCache

namespace CacheScript.State

variable {files : String → Option (List UInt8)} {s s' : State} {handle : LoadHandle}
  {result : Except Error Image}

/-! Scripts. -/

/-- Loads and handles are only added, and what has been seen of a load is kept. -/
structure Grows (s s' : State) : Prop where
  started : s.cache.started.toList <+: s'.cache.started.toList
  handles : s.handles.toList <+: s'.handles.toList
  seen : ∀ (number : Nat) (load : ScriptedLoad), s.loads[number]? = some load → load.isSeen = true →
    s'.loads[number]? = some load

theorem Grows.refl (s : State) : s.Grows s := ⟨List.prefix_refl _, List.prefix_refl _, fun _ _ h _ => h⟩

theorem Grows.trans {s₁ s₂ s₃ : State} (h : s₁.Grows s₂) (h' : s₂.Grows s₃) : s₁.Grows s₃ :=
  ⟨h.started.trans h'.started, h.handles.trans h'.handles, fun number load hload hseen =>
    h'.seen number load (h.seen number load hload hseen) hseen⟩

/-- What a load comes to whenever it is observed. -/
inductive Comes (files : String → Option (List UInt8)) (s : State) (handle : LoadHandle) :
    Except Error Image → Prop
  | source (source : Source) (hstarted : s.cache.started[handle]? = some (.source source)) :
    Comes files s handle (source.load files handle)
  | scripted (name : String) (good : Bool)
    (hstarted : s.cache.started[handle]? = some (.scripted name))
    (hload : s.loads[s.scriptedNumber handle]? = some ⟨some good, true⟩) :
    Comes files s handle (if good then scriptedImage (s.scriptedNumber handle)
      else .error (.parse (.loadFailed (s.scriptedNumber handle))))

theorem Comes.observe (h : s.Comes files handle result) :
    (s.observe files handle).2 = .loaded result := by
  cases h with
  | source source hstarted => simp only [State.observe, hstarted]
  | scripted name good hstarted hload =>
    simp only [State.observe, hstarted, hload, Option.bind_some]

end CacheScript.State

namespace ImageCache

end ImageCache

end VectorImage
