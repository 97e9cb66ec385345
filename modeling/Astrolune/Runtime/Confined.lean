import Astrolune.Lib.Triple
import Astrolune.Runtime.Wasm

namespace Astrolune.Runtime
open Lib Codec

variable {call : WasmCall}

def Host.Confined (call : WasmCall) (host : Host) : Prop :=
  ∀ e ∈ host.writes.entries, e.1 ∈ call.access

namespace Host.Confined

lemma insert {host : Host} (h : host.Confined call) {key : Bytes} (hk : key ∈ call.access)
    (value : Option Bytes) :
    Confined call { host with writes := host.writes.insert key value } := by
  intro e he
  have hg := OrderedMap.get_eq_some_iff.mpr he
  rw [OrderedMap.get_insert] at hg
  split at hg
  · next heq => exact heq ▸ hk
  · exact h e (OrderedMap.get_eq_some_iff.mp hg)

lemma charge (bs : Nat) (io bandwidth : Bool) :
    Triple (Confined call) (Host.charge call bs io bandwidth) fun _ host => host.Confined call := by
  intro host u ho' hh hr
  simp only [Host.charge,StateT.run,bind_eq_ok,pure_ok_iff,Prod.mk.injEq] at hr
  obtain ⟨_,_,_,_,_,_,_,_,_,rfl⟩ := hr
  exact hh

lemma readMemory (pointer length : Int) (maximum : Nat) :
    Triple (Confined call) (Host.readMemory call pointer length maximum)
      fun _ host => host.Confined call :=
  .bind (.ensure fun _ h _ => h) fun _ => .bind (.ensure fun _ h _ => h) fun _ =>
    .bind (charge _ _ _) fun _ => .bind (.get fun _ h => h) fun _ =>
      .bind (.ensure fun _ h _ => h) fun _ => .pure fun _ h => h

lemma writeMemory (pointer : Int) (bs : Bytes) :
    Triple (Confined call) (Host.writeMemory call pointer bs) fun _ host => host.Confined call := by
  refine .bind (.ensure fun _ h _ => h) fun _ => .bind (charge _ _ _) fun _ => ?_
  refine @Triple.bind _ _ _ _ _ _ _ (fun seen host => seen.Confined call) _
    (.get fun _ h => h) fun seen => ?_
  exact .bind (.ensure fun _ h _ => h) fun _ => .set fun _ h => h

lemma readKey (pointer length : Int) : Triple (Confined call) (Host.readKey call pointer length)
      fun key host => host.Confined call ∧ key ∈ call.access :=
  .bind (readMemory _ _ _) fun _ => .bind (.ensure fun _ h hk => ⟨h,hk.2⟩) fun _ => .pure fun _ h => h

end Host.Confined

open Host.Confined in
lemma HostCall.perform_confined (function : HostCall) :
    Triple (Host.Confined call) (function.perform call) fun _ host => host.Confined call := by
  cases function with
  | inputLen | blockHeight => exact .bind (charge _ _ _) fun _ => .pure fun _ h => h
  | inputCopy off pointer length =>
    exact .bind (.ensure fun _ h _ => h) fun _ => .bind (writeMemory _ _) fun _ => .pure fun _ h => h
  | output pointer length =>
    exact .bind (readMemory _ _ _) fun _ => .bind (charge _ _ _) fun _ =>
      .bind (.modify fun _ h => h) fun _ => .pure fun _ h => h
  | stateGet key keyLen target cap =>
    refine .bind (readKey _ _) fun key => .given fun _ => .bind (.get fun _ h => h) fun seen =>
      .bind (charge _ _ _) fun _ => ?_
    split
    · exact .pure fun _ h => h
    · exact .bind (.ensure fun _ h _ => h) fun _ => .bind (writeMemory _ _) fun _ => .pure fun _ h => h
  | statePut key keyLen value valueLen =>
    exact .bind (readKey _ _) fun key => .given fun hk => .bind (readMemory _ _ _) fun _ =>
      .bind (charge _ _ _) fun _ => .bind (.modify fun _ h => h.insert hk _) fun _ => .pure fun _ h => h
  | stateDelete key keyLen =>
    exact .bind (readKey _ _) fun key => .given fun hk => .bind (charge _ _ _)
      fun _ => .bind (.modify fun _ h => h.insert hk _) fun _ => .pure fun _ h => h
  | caller target => exact .bind (writeMemory _ _) fun _ => .pure fun _ h => h
  | emit topic value length =>
    exact .bind (.get fun _ h => h) fun _ => .bind (.ensure fun _ h _ => h) fun _ =>
      .bind (readMemory _ _ _) fun _ => .bind (readMemory _ _ _) fun _ =>
        .bind (charge _ _ _) fun _ => .bind (.modify fun _ h => h) fun _ => .pure fun _ h => h

lemma Guest.run_confined {guest : Guest} {host : Host} {output : WasmOutput}
    (hh : host.Confined call) (h : guest.run call host = .ok output) :
    ∀ e ∈ output.writes.entries, e.1 ∈ call.access := by
  induction guest generalizing host with
  | returned status memory fuel =>
    simp only [run,bind_eq_ok,pure_ok_iff] at h
    obtain ⟨_,_,rfl⟩ := h
    exact hh
  | trapped lim => cases h
  | calls function memory fuel resume ih =>
    rw [run] at h
    split at h
    · cases h
    · next value ho' hp =>
      exact ih value ho'.memory ho'.fuel
        (function.perform_confined { host with memory, fuel } value ho' hh hp) h

lemma writes_confined {engine : WasmEngine} {code : Bytes} {output : WasmOutput}
    (h : execute engine code call = .ok output) :
    ∀ e ∈ output.writes.entries, e.1 ∈ call.access := by
  simp only [execute,bind_eq_ok] at h
  obtain ⟨_,_,_,_,guest,_,hr⟩ := h
  exact Guest.run_confined (fun e he => absurd he List.not_mem_nil) hr

end Astrolune.Runtime
