import Astrolune.Types.Block

namespace Astrolune.Trocto
open Lib Function

def maxStateKeys : Nat := 1024
def maxStateKeyBytes : Nat := 256
def maxEvents : Nat := 256

inductive ExecutionError where
  | fuelExhausted
  | overflow
  | divisionByZero
  | accessDenied
  | eventLimit
  | invalidContext
  | bounds
  deriving DecidableEq

inductive Operator where
  | add
  | subtract
  | multiply
  | divide
  | remainder
  deriving DecidableEq

def Operator.apply (operator : Operator) (left right : UInt64) : Except ExecutionError UInt64 :=
  match operator with
  | .add => okOr .overflow (Resources.checkedAddU64 left right)
  | .subtract => okOr .overflow (Resources.checkedSubU64 left right)
  | .multiply => okOr .overflow (Resources.checkedMulU64 left right)
  | .divide => if right = 0 then .error .divisionByZero else .ok (left / right)
  | .remainder => if right = 0 then .error .divisionByZero else .ok (left % right)

def ofBool (b : Bool) : UInt64 := if b then 1 else 0

structure ContractContext where
  height : UInt64
  caller : Vector UInt64 4
  keys : List Bytes
  state : List (Option UInt64)
  access : List Bool
  deriving DecidableEq

def ContractContext.validate (context : ContractContext) (statics : List Bytes) :
    Except ExecutionError Unit :=
  ensure .invalidContext (context.keys.length ≤ maxStateKeys ∧
    context.state.length = context.keys.length ∧ context.access.length = context.keys.length ∧
    context.keys.take statics.length = statics ∧
    (∀ key ∈ context.keys, key ≠ [] ∧ key.length ≤ maxStateKeyBytes) ∧
    (context.keys.drop statics.length).Pairwise (· < ·) ∧ context.keys.Nodup)

structure ContractExecution where
  value : UInt64
  fuelUsed : UInt64
  state : List (Option UInt64)
  writes : List Bool
  events : List (UInt64 × UInt64)
  deriving DecidableEq

inductive Binary where
  | arithmetic (operator : Operator)
  | equal
  | notEqual
  | less
  | lessEqual
  | greater
  | greaterEqual
  deriving DecidableEq

def Binary.apply (operator : Binary) (left right : UInt64) : Except ExecutionError UInt64 :=
  match operator with
  | .arithmetic operator => operator.apply left right
  | .equal => .ok (ofBool (left = right))
  | .notEqual => .ok (ofBool (left ≠ right))
  | .less => .ok (ofBool (left < right))
  | .lessEqual => .ok (ofBool (left ≤ right))
  | .greater => .ok (ofBool (left > right))
  | .greaterEqual => .ok (ofBool (left ≥ right))

inductive Step where
  | constant (destination : Nat) (value : UInt64)
  | input (destination : Nat)
  | load (destination slot : Nat)
  | store (slot source : Nat) (charge : Bool)
  | move (destination source : Nat)
  | binary (destination : Nat) (operator : Binary) (left right : Nat)
  | not (destination source : Nat)
  | branch (condition yes no : Nat)
  | jump (target : Nat)
  | return (source : Nat)
  | height (destination : Nat)
  | caller (destination index : Nat)
  | keyCount (destination : Nat)
  | keyWord (destination key word : Nat)
  | getAt (destination key : Nat)
  | setAt (key source : Nat)
  | deleteAt (key : Nat)
  | get (destination key : Nat)
  | set (key source : Nat)
  | delete (key : Nat)
  | emit (topic data : Nat)
  deriving DecidableEq

def Step.charged : Step → Bool
  | .store _ _ charge => charge
  | .move .. => false
  | .return _ => false
  | _ => true

structure CheckedProgram where
  instructions : List Step
  registers : Nat
  locals : Nat
  keys : List Bytes
  context : Bool
  deriving DecidableEq

/-- The registers and locals start at zero; a checked program reads and writes those it declares. -/
structure Machine where
  registers : Nat → UInt64
  locals : Nat → UInt64
  state : List (Option UInt64)
  writes : List Bool
  events : List (UInt64 × UInt64)
  used : UInt64
  pc : Nat

inductive Outcome where
  | next (m : Machine)
  | done (result : ContractExecution)

namespace Machine

def setRegister (m : Machine) (destination : Nat) (value : UInt64) : Machine :=
  { m with registers := update m.registers destination value }

def advance (m : Machine) : Machine := { m with pc := m.pc + 1 }

def writeSlot (m : Machine) (key : Nat) (value : Option UInt64) : Machine :=
  { m with state := m.state.set key value, writes := m.writes.set key true }

def readSlot (m : Machine) (key : Nat) : UInt64 := (m.state.getD key none).getD 0

def finish (m : Machine) (source : Nat) : ContractExecution :=
  ⟨m.registers source, m.used, m.state, m.writes, m.events⟩

def start (context : ContractContext) : Machine where
  registers := fun _ => 0
  locals := fun _ => 0
  state := context.state
  writes := List.replicate context.keys.length false
  events := []
  used := 0
  pc := 0

end Machine

def ContractContext.authorize (context : ContractContext) (key : Nat) : Except ExecutionError Unit :=
  ensure .accessDenied (context.access.getD key false = true)

def checkedSlot (index : UInt64) (context : ContractContext) : Except ExecutionError Nat := do
  ensure .bounds (index.toNat < context.keys.length)
  context.authorize index.toNat
  return index.toNat

def ContractContext.keyWord (context : ContractContext) (key : UInt64) (word : Nat) :
    Except ExecutionError UInt64 := do
  let bytes ← okOr .bounds context.keys[key.toNat]?
  ensure .bounds (bytes.length = 32)
  return UInt64.ofNat (leNat ((bytes.drop (word * 8)).take 8))

section Exec

variable (input : UInt64) (context : ContractContext)

def Step.exec (m : Machine) : Step → Except ExecutionError Outcome
  | .constant destination value => .ok (.next (m.setRegister destination value).advance)
  | .input destination => .ok (.next (m.setRegister destination input).advance)
  | .load destination slot => .ok (.next (m.setRegister destination (m.locals slot)).advance)
  | .store slot source _ =>
    .ok (.next { m with locals := update m.locals slot (m.registers source) }.advance)
  | .move destination source => .ok (.next (m.setRegister destination (m.registers source)).advance)
  | .binary destination operator left right => do
    let value ← operator.apply (m.registers left) (m.registers right)
    return .next (m.setRegister destination value).advance
  | .not destination source =>
    .ok (.next (m.setRegister destination (ofBool (m.registers source = 0))).advance)
  | .branch condition yes no =>
    .ok (.next { m with pc := if m.registers condition ≠ 0 then yes else no })
  | .jump target => .ok (.next { m with pc := target })
  | .return source => .ok (.done (m.finish source))
  | .height destination => .ok (.next (m.setRegister destination context.height).advance)
  | .caller destination index =>
    .ok (.next (m.setRegister destination (context.caller.toList.getD index 0)).advance)
  | .keyCount destination =>
    .ok (.next (m.setRegister destination (UInt64.ofNat context.keys.length)).advance)
  | .keyWord destination key word => do
    let value ← context.keyWord (m.registers key) word
    return .next (m.setRegister destination value).advance
  | .getAt destination key => do
    let slot ← checkedSlot (m.registers key) context
    return .next (m.setRegister destination (m.readSlot slot)).advance
  | .setAt key source => do
    let slot ← checkedSlot (m.registers key) context
    return .next (m.writeSlot slot (some (m.registers source))).advance
  | .deleteAt key => do
    let slot ← checkedSlot (m.registers key) context
    return .next (m.writeSlot slot none).advance
  | .get destination key => do
    context.authorize key
    return .next (m.setRegister destination (m.readSlot key)).advance
  | .set key source => do
    context.authorize key
    return .next (m.writeSlot key (some (m.registers source))).advance
  | .delete key => do
    context.authorize key
    return .next (m.writeSlot key none).advance
  | .emit topic data => do
    ensure .eventLimit (m.events.length < maxEvents)
    return .next { m with events := m.events ++ [(m.registers topic, m.registers data)] }.advance

def Machine.charge (m : Machine) (fuel : UInt64) (step : Step) : Except ExecutionError Machine :=
  if step.charged then
    if m.used < fuel then .ok { m with used := m.used + 1 } else .error .fuelExhausted
  else .ok m

/-- One turn of the loop: the charge comes before the instruction's own error. -/
def CheckedProgram.turn (program : CheckedProgram) (fuel : UInt64) (m : Machine) :
    Except ExecutionError Outcome := do
  let step ← okOr .invalidContext program.instructions[m.pc]?
  let m ← m.charge fuel step
  step.exec input context m

end Exec

variable {input fuel : UInt64} {context : ContractContext} {program : CheckedProgram}
  {m m' : Machine} {step : Step}

lemma Step.exec_next (h : step.exec input context m = .ok (.next m')) :
    m'.used = m.used ∧ (step.charged = false → m'.pc = m.pc + 1) := by
  cases step <;> simp only [Step.exec,bind_eq_ok,pure_eq_ok,Except.ok.injEq,Outcome.next.injEq,
    reduceCtorEq] at h
  case branch | jump =>
    subst h
    exact ⟨rfl,fun hc => by cases hc⟩
  case binary | keyWord | getAt | setAt | deleteAt | get | set | delete | emit =>
    obtain ⟨_,_,rfl⟩ := h
    exact ⟨rfl,fun _ => rfl⟩
  all_goals
    subst h
    exact ⟨rfl,fun _ => rfl⟩

lemma CheckedProgram.turn_decreases (h : program.turn input context fuel m = .ok (.next m')) :
    fuel.toNat - m'.used.toNat < fuel.toNat - m.used.toNat ∨
      fuel.toNat - m'.used.toNat = fuel.toNat - m.used.toNat ∧
        program.instructions.length - m'.pc < program.instructions.length - m.pc := by
  simp only [turn,bind_eq_ok,okOr_eq_ok] at h
  obtain ⟨step,hs,charged,hc,he⟩ := h
  obtain ⟨hu,hp⟩ := Step.exec_next he
  have hf := (List.getElem?_eq_some_iff.mp hs).1
  unfold Machine.charge at hc
  split at hc
  · split at hc
    · next hfu =>
      cases hc
      have hl := UInt64.lt_iff_toNat_lt.mp hfu
      have hb := fuel.toNat_lt
      have ho : (1 : UInt64).toNat = 1 := rfl
      rw [hu,UInt64.toNat_add,ho]
      omega
    · cases hc
  · next hfr =>
    cases hc
    rw [hu,hp (by simpa using hfr)]
    omega

namespace CheckedProgram

def run (program : CheckedProgram) (input : UInt64) (context : ContractContext) (fuel : UInt64)
    (m : Machine) : Except ExecutionError ContractExecution :=
  match _h : program.turn input context fuel m with
  | .error e => .error e
  | .ok (.done result) => .ok result
  | .ok (.next m') => program.run input context fuel m'
termination_by (fuel.toNat - m.used.toNat, program.instructions.length - m.pc)
decreasing_by
  rcases turn_decreases _h with hless | ⟨heq, hless⟩
  · exact Prod.Lex.left _ _ hless
  · exact heq ▸ Prod.Lex.right _ hless

def evaluate (program : CheckedProgram) (input : UInt64) (context : ContractContext) (fuel : UInt64) :
    Except ExecutionError ContractExecution := do
  context.validate program.keys
  program.run input context fuel (Machine.start context)

end CheckedProgram

inductive Instruction where
  | constant (value : UInt64)
  | input
  | copy (index : Nat)
  | binary (operator : Operator) (left right : Nat)
  deriving DecidableEq

structure Execution where
  value : UInt64
  fuelUsed : UInt64
  deriving DecidableEq

def Instruction.value (input : UInt64) (values : List UInt64) :
    Instruction → Except ExecutionError UInt64
  | .constant value => .ok value
  | .input => .ok input
  | .copy index => .ok (values.getD index 0)
  | .binary operator left right => operator.apply (values.getD left 0) (values.getD right 0)

def Instruction.exec (input fuel : UInt64) (acc : List UInt64 × UInt64) (instruction : Instruction) :
    Except ExecutionError (List UInt64 × UInt64) := do
  ensure .fuelExhausted (acc.2 < fuel)
  let value ← instruction.value input acc.1
  return (acc.1 ++ [value], acc.2 + 1)

structure Program where
  instructions : List Instruction
  result : Nat
  stateful : Option CheckedProgram
  deriving DecidableEq

namespace Program

def stateKeys (program : Program) : List Bytes :=
  (program.stateful.map CheckedProgram.keys).getD []

def instructionCount (program : Program) : Nat :=
  (program.stateful.map fun checked => checked.instructions.length).getD program.instructions.length

def evaluateScalar (program : Program) (input fuel : UInt64) : Except ExecutionError Execution := do
  let (values, used) ← program.instructions.foldlM (Instruction.exec input fuel) ([], 0)
  return ⟨values.getD program.result 0, used⟩

def emptyContext : ContractContext := ⟨0, Vector.replicate 4 0, [], [], []⟩

def evaluate (program : Program) (input fuel : UInt64) : Except ExecutionError Execution :=
  match program.stateful with
  | some checked => do
    ensure .invalidContext (checked.context = false)
    let execution ← checked.evaluate input emptyContext fuel
    return ⟨execution.value, execution.fuelUsed⟩
  | none => program.evaluateScalar input fuel

def evaluateContract (program : Program) (input : UInt64) (context : ContractContext)
    (fuel : UInt64) : Except ExecutionError ContractExecution :=
  match program.stateful with
  | some checked => checked.evaluate input context fuel
  | none => do
    context.validate []
    let output ← program.evaluate input fuel
    return ⟨output.value, output.fuelUsed, context.state,
      List.replicate context.keys.length false, []⟩

end Program

def Machine.Authorized (context : ContractContext) (writes : List Bool) : Prop :=
  ∀ key, writes.getD key false = true → context.access.getD key false = true

lemma Machine.Authorized.set {ws : List Bool} {key : Nat}
    (h : Authorized context ws) (hk : context.access.getD key false = true) :
    Authorized context (ws.set key true) := by
  intro other ho
  by_cases heq : key = other
  · exact heq ▸ hk
  · refine h other ?_
    rwa [List.getD_eq_getElem?_getD,List.getElem?_set_ne heq,← List.getD_eq_getElem?_getD] at ho

lemma checkedSlot_eq_ok {index : UInt64} {slot : Nat} (h : checkedSlot index context = .ok slot) :
    context.access.getD slot false = true := by
  simp only [checkedSlot,ContractContext.authorize,bind_eq_ok,ensure_eq_ok,pure_eq_ok,Except.ok.injEq] at h
  obtain ⟨_,_,_,ha,rfl⟩ := h
  exact ha

/-- All that an instruction does to the slots: it leaves them, or writes one that its call may
access. -/
lemma Step.exec_slots (h : step.exec input context m = .ok (.next m')) :
    m'.state = m.state ∧ m'.writes = m.writes ∨
      ∃ key value, context.access.getD key false = true ∧ m'.state = m.state.set key value ∧
        m'.writes = m.writes.set key true := by
  cases step <;> simp only [Step.exec,ContractContext.authorize,bind_eq_ok,pure_eq_ok,ensure_eq_ok,
    Except.ok.injEq,Outcome.next.injEq,reduceCtorEq] at h
  case setAt | deleteAt =>
    obtain ⟨slot,hs,rfl⟩ := h
    exact .inr ⟨slot,_,checkedSlot_eq_ok hs,rfl,rfl⟩
  case set | delete =>
    obtain ⟨_,hk,rfl⟩ := h
    exact .inr ⟨_,_,hk,rfl,rfl⟩
  case binary | keyWord | getAt | get | emit =>
    obtain ⟨_,_,rfl⟩ := h
    exact .inl ⟨rfl,rfl⟩
  all_goals
    subst h
    exact .inl ⟨rfl,rfl⟩

lemma Machine.charge_slots (h : m.charge fuel step = .ok m') :
    m'.state = m.state ∧ m'.writes = m.writes := by
  unfold Machine.charge at h
  split at h
  · split at h <;> cases h
    exact ⟨rfl,rfl⟩
  · cases h
    exact ⟨rfl,rfl⟩

lemma Step.exec_done {res : ContractExecution}
    (h : step.exec input context m = .ok (.done res)) :
    res.state = m.state ∧ res.writes = m.writes := by
  cases step <;> simp only [Step.exec,bind_eq_ok,pure_eq_ok,Except.ok.injEq,Outcome.done.injEq,
    reduceCtorEq,and_false,exists_false] at h
  subst h
  exact ⟨rfl,rfl⟩

namespace CheckedProgram

lemma run_preserves {P : List (Option UInt64) → List Bool → Prop} {res : ContractExecution}
    (hse : ∀ st ws key value, context.access.getD key false = true → P st ws →
      P (st.set key value) (ws.set key true))
    (hm : P m.state m.writes) (h : program.run input context fuel m = .ok res) :
    P res.state res.writes := by
  induction m using run.induct program input context fuel with
  | case1 m e ht => rw [run,ht] at h; cases h
  | case2 m result' ht =>
    rw [run,ht] at h
    cases h
    simp only [turn,bind_eq_ok] at ht
    obtain ⟨step,_,charged,hc,he⟩ := ht
    obtain ⟨hst,hw⟩ := Step.exec_done he
    obtain ⟨hs,hf⟩ := Machine.charge_slots hc
    rw [hst,hw,hs,hf]
    exact hm
  | case3 m m' ht ih =>
    rw [run,ht] at h
    refine ih ?_ h
    simp only [turn,bind_eq_ok] at ht
    obtain ⟨step,_,charged,hc,he⟩ := ht
    obtain ⟨hs,hf⟩ := Machine.charge_slots hc
    rw [← hs,← hf] at hm
    rcases Step.exec_slots he with ⟨hst,hw⟩ | ⟨key,value,hk,hst,hw⟩
    · rw [hst,hw]
      exact hm
    · rw [hst,hw]
      exact hse _ _ _ _ hk hm

end CheckedProgram

lemma Program.writes_authorized {program : Program} {res : ContractExecution}
    (h : program.evaluateContract input context fuel = .ok res) :
    Machine.Authorized context res.writes := by
  have hn : Machine.Authorized context (List.replicate context.keys.length false) := by
    intro key hk
    rw [List.getD_eq_getElem?_getD,List.getElem?_replicate] at hk
    split at hk <;> cases hk
  unfold evaluateContract at h
  split at h
  · next checked _ =>
    simp only [CheckedProgram.evaluate,bind_eq_ok] at h
    obtain ⟨_,_,hr⟩ := h
    exact CheckedProgram.run_preserves (P := fun _ ws => Machine.Authorized context ws)
      (fun _ _ _ _ hk hw => hw.set hk) hn hr
  · simp only [bind_eq_ok,pure_eq_ok,Except.ok.injEq] at h
    obtain ⟨_,_,_,_,rfl⟩ := h
    exact hn

end Astrolune.Trocto
