import Astrolune.Trocto.Machine

namespace Astrolune.Trocto
open Lib Option

variable {input fuel : UInt64} {context : ContractContext} {m m' : Machine} {step : Step}
  {access : List Bool} {state : List (Option UInt64)} {key : Nat}

section Interruption

variable (input : UInt64) (context : ContractContext) (fuel : UInt64) (interrupt : Nat → Bool)

/-- The loop with a local interrupt, given by its answer to each poll. It is polled every 1,024
dispatches and again before a result is returned. -/
def CheckedProgram.runWithInterrupt (program : CheckedProgram) (polls dispatches : Nat) (m : Machine) :
    Except ExecutionError (Option ContractExecution) :=
  if dispatches = 0 ∧ interrupt polls = true then .ok none
  else
    let polls := if dispatches = 0 then polls + 1 else polls
    match _h : program.turn input context fuel m with
    | .error e => .error e
    | .ok (.done result) => .ok (if interrupt polls then none else some result)
    | .ok (.next m') => program.runWithInterrupt polls ((dispatches + 1) % 1024) m'
termination_by (fuel.toNat - m.used.toNat, program.instructions.length - m.pc)
decreasing_by
  rcases turn_decreases _h with hless | ⟨heq, hless⟩
  · exact Prod.Lex.left _ _ hless
  · exact heq ▸ Prod.Lex.right _ hless

def CheckedProgram.evaluateWithInterrupt (program : CheckedProgram) :
    Except ExecutionError (Option ContractExecution) := do
  context.validate program.keys
  program.runWithInterrupt input context fuel interrupt 0 0 (Machine.start context)

def Program.evaluateContractWithInterrupt (program : Program) :
    Except ExecutionError (Option ContractExecution) :=
  match program.stateful with
  | some checked => checked.evaluateWithInterrupt input context fuel interrupt
  | none => do
    context.validate []
    if interrupt 0 then return none
    let result ← program.evaluateContract input context fuel
    if interrupt 1 then return none
    return some result

variable {input context fuel interrupt}

lemma CheckedProgram.runWithInterrupt_or (program : CheckedProgram) (polls dispatches : Nat)
    (m : Machine) :
    program.runWithInterrupt input context fuel interrupt polls dispatches m = .ok none ∨
      program.runWithInterrupt input context fuel interrupt polls dispatches m =
        (program.run input context fuel m).map some := by
  induction m using run.induct program input context fuel generalizing polls dispatches with
  | case1 m e ht =>
    rw [runWithInterrupt,run,ht]
    split
    · exact .inl rfl
    · exact .inr rfl
  | case2 m res ht =>
    rw [runWithInterrupt,run,ht]
    split
    · exact .inl rfl
    · dsimp only
      generalize (if dispatches = 0 then polls + 1 else polls) = next
      cases interrupt next
      · exact .inr rfl
      · exact .inl rfl
  | case3 m m' ht ih =>
    rw [runWithInterrupt,run,ht]
    split
    · exact .inl rfl
    · exact ih _ _

lemma Program.evaluateContractWithInterrupt_or (program : Program) :
    program.evaluateContractWithInterrupt input context fuel interrupt = .ok none ∨
      program.evaluateContractWithInterrupt input context fuel interrupt =
        (program.evaluateContract input context fuel).map some := by
  unfold evaluateContractWithInterrupt
  cases hp : program.stateful with
  | some checked =>
    simp only [evaluateContract,hp,CheckedProgram.evaluate,CheckedProgram.evaluateWithInterrupt]
    cases context.validate checked.keys with
    | error e => exact .inr rfl
    | ok => exact checked.runWithInterrupt_or 0 0 _
  | none =>
    simp only [evaluateContract,hp]
    cases context.validate [] with
    | error e => exact .inr rfl
    | ok =>
      cases program.evaluate input fuel with
      | error e => cases interrupt 0 <;> simp [Except.map,bind,Except.bind,pure,Except.pure]
      | ok output =>
        cases interrupt 0 <;> cases interrupt 1 <;>
          simp [Except.map,bind,Except.bind,pure,Except.pure]

end Interruption

def hide (access : List Bool) (state : List (Option UInt64)) : List (Option UInt64) :=
  List.zipWith (fun allowed slot => if allowed then slot else none) access state

lemma getD_hide (h : access.getD key false = true) :
    (hide access state).getD key none = state.getD key none := by
  simp only [List.getD_eq_getElem?_getD,hide,List.getElem?_zipWith] at h ⊢
  cases ha : access[key]? <;> cases state[key]? <;> simp_all

variable {value : Option UInt64} {result : ContractExecution}

lemma hide_set (h : access.getD key false = true) :
    hide access (state.set key value) = (hide access state).set key value := by
  rw [List.getD_eq_getElem?_getD] at h
  apply List.ext_getElem?
  intro other
  by_cases heq : key = other
  · subst heq
    simp only [hide,List.getElem?_zipWith,List.getElem?_set_self']
    cases ha : access[key]? <;> cases hs : state[key]? <;> simp_all
  · simp only [hide,List.getElem?_zipWith,List.getElem?_set_ne heq]

def ContractContext.visible (context : ContractContext) : ContractContext :=
  { context with state := hide context.access context.state }

def Machine.visible (access : List Bool) (m : Machine) : Machine :=
  { m with state := hide access m.state }

def ContractExecution.visible (access : List Bool) (result : ContractExecution) : ContractExecution :=
  { result with state := hide access result.state }

def Outcome.visible (access : List Bool) : Outcome → Outcome
  | .next m => .next (m.visible access)
  | .done result => .done (result.visible access)

lemma Machine.readSlot_visible (h : access.getD key false = true) :
    (m.visible access).readSlot key = m.readSlot key := by
  simp only [readSlot,Machine.visible,getD_hide h]

lemma Machine.writeSlot_visible (h : access.getD key false = true) :
    (m.visible access).writeSlot key value = (m.writeSlot key value).visible access := by
  simp only [writeSlot,Machine.visible,hide_set h]

lemma ContractContext.validate_visible (statics : List Bytes) :
    context.validate statics = .ok () → context.visible.validate statics = .ok () := by
  simp only [validate,ensure_eq_ok,visible,hide,List.length_zipWith]
  intro ⟨hc,hs,ha,hr⟩
  exact ⟨hc,by omega,ha,hr⟩

lemma Step.exec_visible : step.exec input context.visible (m.visible context.access) =
      (step.exec input context m).map (Outcome.visible context.access) := by
  cases step
  case binary destination operator left right =>
    simp only [Step.exec,Machine.visible]
    cases operator.apply (m.registers left) (m.registers right) <;> rfl
  case keyWord destination key word =>
    have hw : context.visible.keyWord (m.registers key) word =
      context.keyWord (m.registers key) word := rfl
    simp only [Step.exec,Machine.visible,hw]
    cases context.keyWord (m.registers key) word <;> rfl
  case getAt destination key =>
    change (checkedSlot (m.registers key) context >>= _) = Except.map _ (_ >>= _)
    cases hs : checkedSlot (m.registers key) context with
    | error e => rfl
    | ok slot =>
      simp only [bind,Except.bind,pure,Except.pure,Machine.readSlot_visible (checkedSlot_eq_ok hs)]
      rfl
  case setAt key source | deleteAt key =>
    change (checkedSlot (m.registers key) context >>= _) = Except.map _ (_ >>= _)
    cases hs : checkedSlot (m.registers key) context with
    | error e => rfl
    | ok slot =>
      simp only [bind,Except.bind,pure,Except.pure,Machine.writeSlot_visible (checkedSlot_eq_ok hs)]
      rfl
  case get destination key =>
    change (context.authorize key >>= _) = Except.map _ (_ >>= _)
    cases hk : context.authorize key with
    | error e => rfl
    | ok =>
      simp only [bind,Except.bind,pure,Except.pure,Machine.readSlot_visible (ensure_eq_ok.mp hk)]
      rfl
  case set key source | delete key =>
    change (context.authorize key >>= _) = Except.map _ (_ >>= _)
    cases hk : context.authorize key with
    | error e => rfl
    | ok =>
      simp only [bind,Except.bind,pure,Except.pure,Machine.writeSlot_visible (ensure_eq_ok.mp hk)]
      rfl
  case emit topic data =>
    change (ensure ExecutionError.eventLimit (m.events.length < maxEvents) >>= _) = Except.map _ (_ >>= _)
    cases ensure ExecutionError.eventLimit (m.events.length < maxEvents) <;> rfl
  all_goals rfl

namespace CheckedProgram

variable {program : CheckedProgram}

lemma turn_visible : program.turn input context.visible fuel (m.visible context.access) =
      (program.turn input context fuel m).map (Outcome.visible context.access) := by
  simp only [turn]
  change (okOr ExecutionError.invalidContext program.instructions[m.pc]? >>= _) = _
  cases okOr ExecutionError.invalidContext program.instructions[m.pc]? with
  | error e => rfl
  | ok step =>
    have hc : (m.visible context.access).charge fuel step =
        (m.charge fuel step).map (Machine.visible context.access) := by
      unfold Machine.charge
      split
      · change (if m.used < fuel then _ else _) = _
        split <;> rfl
      · rfl
    simp only [bind,Except.bind,hc]
    cases m.charge fuel step with
    | error e => rfl
    | ok charged => exact Step.exec_visible

lemma run_visible : program.run input context.visible fuel (m.visible context.access) =
      (program.run input context fuel m).map (ContractExecution.visible context.access) := by
  induction m using run.induct program input context fuel with
  | case1 m e ht =>
    rw [run,run,turn_visible,ht]
    rfl
  | case2 m result ht =>
    rw [run,run,turn_visible,ht]
    rfl
  | case3 m m' ht ih =>
    rw [run,turn_visible,ht]
    rw [run,ht]
    exact ih

end CheckedProgram

lemma Program.evaluateContract_visible {program : Program}
    (h : context.validate program.stateKeys = .ok ()) :
    program.evaluateContract input context.visible fuel =
      (program.evaluateContract input context fuel).map (ContractExecution.visible context.access) := by
  have hv := ContractContext.validate_visible _ h
  cases hp : program.stateful with
  | some checked =>
    simp only [stateKeys,hp,map_some,getD_some] at h hv
    simp only [evaluateContract,hp,CheckedProgram.evaluate,h,hv]
    change checked.run input context.visible fuel ((Machine.start context).visible context.access) = _
    exact CheckedProgram.run_visible
  | none =>
    simp only [stateKeys,hp,map_none,getD_none] at h hv
    simp only [evaluateContract,hp,h,hv]
    cases program.evaluate input fuel <;> rfl

structure Kept (context : ContractContext) (state : List (Option UInt64)) (writes : List Bool) : Prop where
  length : state.length = writes.length
  kept : ∀ key, writes.getD key false = false → state[key]? = context.state[key]?

lemma Kept.set {ws : List Bool} (h : Kept context state ws) :
    Kept context (state.set key value) (ws.set key true) := by
  by_cases hl : key < ws.length
  · refine ⟨by simpa using h.length,?_⟩
    intro other ho
    rw [List.getD_eq_getElem?_getD] at ho
    by_cases heq : key = other
    · subst heq
      simp [hl] at ho
    · rw [List.getElem?_set_ne heq] at ho ⊢
      exact h.kept other (by rwa [List.getD_eq_getElem?_getD])
  · have hou := not_lt.mp hl
    rw [List.set_eq_of_length_le hou,List.set_eq_of_length_le (h.length ▸ hou)]
    exact h

lemma Program.evaluateContract_kept {program : Program}
    (h : program.evaluateContract input context fuel = .ok result) :
    Kept context result.state result.writes := by
  have hs : ∀ statics, context.validate statics = .ok () →
      Kept context context.state (List.replicate context.keys.length false) := by
    intro statics hv
    obtain ⟨-,hl,-⟩ := ensure_eq_ok.mp hv
    exact ⟨by rw [hl,List.length_replicate],fun _ _ => rfl⟩
  unfold evaluateContract at h
  split at h
  · next checked _ =>
    simp only [CheckedProgram.evaluate,bind_eq_ok] at h
    obtain ⟨_,hv,hr⟩ := h
    exact CheckedProgram.run_preserves (P := Kept context) (fun _ _ _ _ _ hk => hk.set) (hs _ hv) hr
  · simp only [bind_eq_ok,pure_ok_iff] at h
    obtain ⟨_,hv,_,_,rfl⟩ := h
    exact hs _ hv

structure ContractExecution.Isolated (context : ContractContext) (result : ContractExecution) : Prop where
  inaccessible : ∀ key, context.access.getD key false = false →
    result.state[key]? = context.state[key]? ∧ result.writes.getD key false = false
  flagged : ∀ key, result.state[key]? ≠ context.state[key]? → result.writes.getD key false = true

lemma Program.evaluateContract_isolated {program : Program}
    (h : program.evaluateContract input context fuel = .ok result) : result.Isolated context := by
  have hk := evaluateContract_kept h
  have ha := writes_authorized h
  constructor
  · intro key hke
    have hf : result.writes.getD key false = false := by
      by_contra hw
      have := ha key (by simpa using hw)
      rw [hke] at this
      cases this
    exact ⟨hk.kept key hf,hf⟩
  · intro key hc
    by_contra hf
    exact hc (hk.kept key (by simpa using hf))

/-- Slots that a call may not access neither reach its result nor change, and a local interrupt can
only withhold the result. -/
theorem Program.inaccessible_slots_isolated (program : Program) (input fuel : UInt64)
    (context other : ContractContext) (h : context.validate program.stateKeys = .ok ())
    (hother : other.validate program.stateKeys = .ok ()) (hsame : context.visible = other.visible) :
    (program.evaluateContract input context fuel).map (ContractExecution.visible context.access) =
        (program.evaluateContract input other fuel).map (ContractExecution.visible context.access) ∧
      (∀ result, program.evaluateContract input context fuel = .ok result → result.Isolated context) ∧
      ∀ interrupt,
        program.evaluateContractWithInterrupt input context fuel interrupt = .ok none ∨
          program.evaluateContractWithInterrupt input context fuel interrupt =
            (program.evaluateContract input context fuel).map some := by
  have ha : context.visible.access = other.visible.access := congrArg _ hsame
  refine ⟨?_,fun _ => evaluateContract_isolated,fun _ => evaluateContractWithInterrupt_or program⟩
  rw [← evaluateContract_visible h,hsame,evaluateContract_visible hother]
  exact congrArg (fun access => Except.map (ContractExecution.visible access) _) ha.symm

namespace SampleCall

def program : Program where
  instructions := []
  result := 0
  stateful := some
    { instructions := [.get 0 0, .constant 1 1, .binary 2 (.arithmetic .add) 0 1, .set 0 2, .return 2]
      registers := 3, locals := 0, keys := [[1], [2]], context := true }

def call (secret : Option UInt64) : ContractContext where
  height := 1
  caller := Vector.replicate 4 0
  keys := [[1], [2]]
  state := [some 5, secret]
  access := [true, false]

end SampleCall

theorem Program.inaccessible_slots_isolated_sample :
    ((SampleCall.call (some 7)).validate SampleCall.program.stateKeys = .ok () ∧
      (SampleCall.call none).validate SampleCall.program.stateKeys = .ok ()) ∧
    (SampleCall.program.evaluateContract 0 (SampleCall.call (some 7)) 9).map
        (ContractExecution.visible [true, false]) =
      (SampleCall.program.evaluateContract 0 (SampleCall.call none) 9).map
        (ContractExecution.visible [true, false]) :=
  ⟨⟨by decide,by decide⟩,(inaccessible_slots_isolated SampleCall.program 0 9 (SampleCall.call (some 7))
    (SampleCall.call none) (by decide) (by decide) (by decide)).1⟩

end Astrolune.Trocto
