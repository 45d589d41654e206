import MikaBoo.Library.Replay
import MikaBoo.Abstract.Contexts

/-!
# Payload words

A receive writes its payload to the word that the receiver's `a3` points to, if it is
no NULL pointer.
-/

namespace MikaBoo

open Replay

/-- What a receive writes, where `pmsg` says which payload pointer its thread has passed. -/
def Obs.word (pmsg : Tcb → Value) : Obs → Option (Value × Value)
  | .received t _ pl =>
      if pmsg t ≠ null ∧ (pmsg t).isPayloadPtr = true then some (pmsg t, pl) else none
  | .sent .. | .allocated _ | .freed _ => none

theorem load_store_eq (k : Kernel) {ptr : Value} (v : Value) (hptr : ptr.isPayloadPtr = true) :
    (k.store ptr v).load = Function.update k.load ptr v := by
  funext p
  by_cases hp : p = ptr
  · rw [hp, load_store k v hptr, Function.update_self]
  · rw [Function.update_of_ne hp]
    cases ptr with
    | int a =>
        cases p with
        | int a' =>
            have ha : a' ≠ a := by
              rintro rfl
              exact hp rfl
            change Function.update k.mem a v a' = k.mem a'
            rw [Function.update_of_ne ha]
        | _ => rfl
    | ssiMsg =>
        cases p with
        | ssiMsg => exact absurd rfl hp
        | _ => rfl
    | _ => cases hptr

theorem load_store_of_other (k : Kernel) {ptr : Value} (v : Value)
    (hptr : ptr.isPayloadPtr = false) : (k.store ptr v).load = k.load := by
  cases ptr with
  | int | ssiMsg => cases hptr
  | _ => rfl

/-- `*pmsg = v`, unless the pointer is NULL. -/
theorem load_deliver (k : Kernel) (pmsg : Tcb → Value) (t : Tcb) (s : Option Tcb) (v : Value) :
    (if pmsg t = null then k else k.store (pmsg t) v).load =
      replay ([Obs.received t s v].filterMap (Obs.word pmsg)) k.load := by
  by_cases hnull : pmsg t = null
  · simp [Obs.word, hnull]
  · rw [if_neg hnull]
    by_cases hptr : (pmsg t).isPayloadPtr = true
    · rw [load_store_eq k v hptr]
      simp [Obs.word, hnull, hptr]
    · rw [load_store_of_other k v (by simpa using hptr)]
      simp [Obs.word, hptr]

/-- `resume_thread` writes the payload, and changes no payload pointer. -/
theorem resumeThread_words (k : Kernel) (d : Tcb) (s : Option Tcb) (pl : Value) :
    (∀ u, ((resumeThread k d s pl).tcb u).tS.a3 = (k.tcb u).tS.a3) ∧
      (resumeThread k d s pl).load =
        replay ([Obs.received d s pl].filterMap (Obs.word fun u => (k.tcb u).tS.a3)) k.load := by
  have htcb := (resumeThread_effect k d s pl).1
  constructor
  · intro u
    by_cases hu : u = d <;> simp [htcb, hu]
  · let k₁ := k.modTcb d fun e => { e with tS := { e.tS with a1 := tcbPtr s } }
    have ha3 : (k₁.tcb d).tS.a3 = (k.tcb d).tS.a3 := by simp [k₁, Kernel.modTcb]
    have hsame : (if (k.tcb d).tS.a3 = null then k₁ else k₁.store (k.tcb d).tS.a3 pl).load =
        (if (k.tcb d).tS.a3 = null then k else k.store (k.tcb d).tS.a3 pl).load := by
      split
      · exact load_eq rfl rfl
      · cases (k.tcb d).tS.a3 <;> exact load_eq rfl rfl
    rw [← load_deliver, ← hsame, ← ha3]
    exact load_eq rfl rfl

end MikaBoo
