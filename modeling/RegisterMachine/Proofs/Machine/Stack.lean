import RegisterMachine.Proofs.Machine.Sessions
import RegisterMachine.Proofs.Memory.Words

/-!
# The stack is a list

The words of RAM from the stack pointer on are a list with the top of the stack first
(`Machine.stack`). On a checked machine whose stack pointer is inside RAM or at its end (`Stacked`),
the instructions `push` and `pop` and the host's `hostPush` and `hostPop` are the operations of this
list (`ActsAsList`): each tells exactly when it is refused, which leaves the machine as it was, and
what it makes of the list otherwise.

A push writes below the words that the list has, and a pop writes nothing, so the list that is left
is still there in RAM. It follows for every session of stack operations, with anything between them
that touches neither RAM nor the stack pointer, that the stack is what the same operations make of a
list (`stack_refines_list`): words come back last in, first out.
-/

namespace RegisterMachine.Machine

variable {σ : Type} {machine machine' : Machine σ} {value : UInt32}

/-- The words from the stack pointer on, the top of the stack first. -/
def stack (machine : Machine σ) : List UInt32 :=
  machine.ram.wordsFrom (machine.register .sp).toNat

/-- A checked machine whose stack pointer is inside RAM or at its end. -/
structure Stacked (machine : Machine σ) : Prop where
  policy : machine.policy = .checked
  sp : (machine.register .sp).toNat ≤ machine.ram.size

/-! ## What pushes and pops make of the list -/

/-- Nothing has been written to RAM or to the stack pointer. -/
structure SameStack (machine machine' : Machine σ) : Prop where
  policy : machine'.policy = machine.policy
  ram : machine'.ram = machine.ram
  sp : machine'.register .sp = machine.register .sp

/-- A word has been written below the stack pointer, which now points to it. -/
structure Pushed (value : UInt32) (machine machine' : Machine σ) : Prop where
  policy : machine'.policy = machine.policy
  ram : machine'.ram = machine.ram.writeWord (machine.register .sp - 4).toNat value
  sp : machine'.register .sp = machine.register .sp - 4

/-- The stack pointer has moved past a word. -/
structure Popped (machine machine' : Machine σ) : Prop where
  policy : machine'.policy = machine.policy
  ram : machine'.ram = machine.ram
  sp : machine'.register .sp = machine.register .sp + 4

/-- What leaves the stack alone leaves its words. -/
theorem SameStack.stack (h : SameStack machine machine') : machine'.stack = machine.stack := by
  unfold Machine.stack
  rw [h.ram, h.sp]

/-- What leaves the stack alone leaves the stack pointer inside RAM. -/
theorem SameStack.stacked (h : SameStack machine machine') (hstacked : machine.Stacked) :
    machine'.Stacked := by
  refine ⟨h.policy.trans hstacked.policy, ?_⟩
  rw [h.ram, h.sp]
  exact hstacked.sp

/-- What leaves the stack alone leaves the count of its bytes. -/
theorem SameStack.stackCount (h : SameStack machine machine') :
    machine'.stackCount = machine.stackCount := by
  unfold Machine.stackCount
  rw [h.ram, h.sp]

namespace Stacked

/-- There is room for one more word when the stack pointer is not below four. Otherwise it would
wrap around, beyond all of RAM. -/
theorem holdsWord_sub_iff (h : machine.Stacked) :
    machine.ram.holdsWord (machine.register .sp - 4).toNat = true ↔ 4 ≤ machine.register .sp := by
  have hsp := h.sp
  have hsize := machine.ram.size_le
  unfold addressSpace at hsize
  rw [Region.holdsWord_eq_true_iff, UInt32.le_iff_toNat_le, UInt32.toNat_sub]
  unfold wordBytes
  change _ ↔ 4 ≤ _
  change (2 ^ 32 - 4 + _) % 2 ^ 32 + 4 ≤ _ ↔ _
  omega

/-- Where there is room for a word, the address below the stack pointer does not wrap around. -/
theorem toNat_sub (h : 4 ≤ machine.register .sp) :
    (machine.register .sp - 4).toNat + wordBytes = (machine.register .sp).toNat := by
  have hle : 4 ≤ (machine.register .sp).toNat := UInt32.le_iff_toNat_le.mp h
  rw [UInt32.toNat_sub_of_le _ _ h]
  exact Nat.sub_add_cancel hle

/-- Where the stack has a top, that is the word at the stack pointer. -/
theorem word?_of_stack {rest : List UInt32} (h : machine.stack = value :: rest) :
    machine.ram.holdsWord (machine.register .sp).toNat = true ∧
      machine.readWord (machine.register .sp) = value ∧
      rest = machine.ram.wordsFrom ((machine.register .sp).toNat + wordBytes) := by
  unfold stack at h
  cases hholds : machine.ram.holdsWord (machine.register .sp).toNat with
  | false =>
    rw [Region.wordsFrom_eq_nil hholds] at h
    cases h
  | true =>
    obtain ⟨value', hword, hcons⟩ := Region.exists_wordsFrom_eq_cons hholds
    rw [hcons] at h
    cases h
    unfold readWord
    rw [hword]
    exact ⟨rfl, rfl, rfl⟩

/-- The stack is empty where no whole word is left. -/
theorem holdsWord_of_stack_eq_nil (h : machine.stack = []) :
    machine.ram.holdsWord (machine.register .sp).toNat = false := by
  cases hholds : machine.ram.holdsWord (machine.register .sp).toNat with
  | false => rfl
  | true =>
    obtain ⟨value, -, hcons⟩ := Region.exists_wordsFrom_eq_cons hholds
    unfold stack at h
    rw [hcons] at h
    cases h

/-- The bytes of the stack and those below it make up RAM. -/
theorem stackCount_add (h : machine.Stacked) :
    machine.stackCount + (machine.register .sp).toNat = machine.ram.size :=
  Nat.sub_add_cancel h.sp

end Stacked

namespace Pushed

/-- A push puts its word before the others, which it does not touch. -/
theorem stack (h : Pushed value machine machine') (hstacked : machine.Stacked)
    (hroom : 4 ≤ machine.register .sp) : machine'.stack = value :: machine.stack := by
  have hholds := hstacked.holdsWord_sub_iff.mpr hroom
  have hword : machine'.ram.word? (machine.register .sp - 4).toNat = some value := by
    rw [h.ram]
    exact Region.word?_writeWord_self hholds value
  unfold Machine.stack
  rw [h.sp, Region.wordsFrom_eq_cons hword, h.ram,
    Region.wordsFrom_writeWord (Nat.le_refl _), Stacked.toNat_sub hroom]

/-- A push leaves the stack pointer inside RAM. -/
theorem stacked (h : Pushed value machine machine') (hstacked : machine.Stacked)
    (hroom : 4 ≤ machine.register .sp) : machine'.Stacked := by
  refine ⟨h.policy.trans hstacked.policy, ?_⟩
  rw [h.ram, h.sp, Region.size_writeWord]
  exact Nat.le_trans (Nat.le_of_add_right_le (Nat.le_of_eq (Stacked.toNat_sub hroom))) hstacked.sp

/-- A push adds the bytes of a word. -/
theorem stackCount (h : Pushed value machine machine') (hstacked : machine.Stacked)
    (hroom : 4 ≤ machine.register .sp) :
    machine'.stackCount = machine.stackCount + wordBytes := by
  have hcount := hstacked.stackCount_add
  have hcount' := (h.stacked hstacked hroom).stackCount_add
  have hsub := Stacked.toNat_sub hroom
  rw [h.ram, h.sp, Region.size_writeWord] at hcount'
  omega

end Pushed

namespace Popped

variable {rest : List UInt32}

/-- A pop leaves the words after the top. -/
theorem stack (h : Popped machine machine') (hstack : machine.stack = value :: rest) :
    machine'.stack = rest := by
  obtain ⟨hholds, -, rfl⟩ := Stacked.word?_of_stack hstack
  unfold Machine.stack
  rw [h.ram, h.sp, Region.toNat_add_four hholds]

/-- A pop leaves the stack pointer inside RAM or at its end. -/
theorem stacked (h : Popped machine machine') (hstacked : machine.Stacked)
    (hstack : machine.stack = value :: rest) : machine'.Stacked := by
  obtain ⟨hholds, -, -⟩ := Stacked.word?_of_stack hstack
  refine ⟨h.policy.trans hstacked.policy, ?_⟩
  rw [h.ram, h.sp, Region.toNat_add_four hholds]
  exact Region.holdsWord_eq_true_iff.mp hholds

/-- A pop takes away the bytes of a word. -/
theorem stackCount (h : Popped machine machine') (hstacked : machine.Stacked)
    (hstack : machine.stack = value :: rest) :
    machine'.stackCount + wordBytes = machine.stackCount := by
  obtain ⟨hholds, -, -⟩ := Stacked.word?_of_stack hstack
  have hcount := hstacked.stackCount_add
  have hcount' := (h.stacked hstacked hstack).stackCount_add
  rw [h.ram, h.sp, Region.toNat_add_four hholds] at hcount'
  omega

end Popped

/-! ## What the operations do -/

/-- What an operation makes of a machine: its stack, the size of the stack in bytes, and its
registers. -/
structure Becomes (machine : Machine σ) (words : List UInt32) (count : Nat)
    (registers : Register → UInt32) : Prop where
  stacked : machine.Stacked
  stack : machine.stack = words
  stackCount : machine.stackCount = count
  register : ∀ register, machine.register register = registers register

/-- After a push the word is on top of those that were there. -/
theorem Pushed.becomes (h : Pushed value machine machine') (hstacked : machine.Stacked)
    (hroom : 4 ≤ machine.register .sp) {registers : Register → UInt32}
    (hregisters : ∀ register, machine'.register register = registers register) :
    machine'.Becomes (value :: machine.stack) (machine.stackCount + wordBytes) registers :=
  ⟨h.stacked hstacked hroom, h.stack hstacked hroom, h.stackCount hstacked hroom, hregisters⟩

/-- After a pop the words are those below the top. -/
theorem Popped.becomes (h : Popped machine machine') (hstacked : machine.Stacked)
    {rest : List UInt32} (hstack : machine.stack = value :: rest) {registers : Register → UInt32}
    (hregisters : ∀ register, machine'.register register = registers register) :
    machine'.Becomes rest (machine.stackCount - wordBytes) registers :=
  ⟨h.stacked hstacked hstack, h.stack hstack,
    Nat.eq_sub_of_add_eq (h.stackCount hstacked hstack), hregisters⟩

/-- What `push` leaves in the registers. -/
theorem register_executedTo_push (machine : Machine σ) (next : UInt32) (r s : Register) :
    (machine.executedTo next (.push r.id)).register s =
      if s = .ip then next else if s = .sp then machine.register .sp - 4
        else machine.register s := by
  change (((machine.writeWord _ _).setRegister .sp _).setRegister .ip next).register s = _
  rw [register_setRegister, register_setRegister]
  rfl

/-- What `pop` leaves in the registers: both pointers are set after the register that it names. -/
theorem register_executedTo_pop (machine : Machine σ) (next : UInt32) (r s : Register) :
    (machine.executedTo next (.pop r.id)).register s =
      if s = .ip then next else if s = .sp then machine.register .sp + 4
        else if s = r then machine.readWord (machine.register .sp) else machine.register s := by
  change (((machine.setRegister r _).setRegister .sp _).setRegister .ip next).register s = _
  rw [register_setRegister, register_setRegister, register_setRegister]

/-- A `push` that is executed pushes the word of its register. -/
theorem pushed_executedTo (machine : Machine σ) (next : UInt32) (r : Register) :
    Pushed (machine.register r) machine (machine.executedTo next (.push r.id)) :=
  ⟨rfl, rfl, register_executedTo_push machine next r .sp⟩

/-- A `pop` that is executed pops, whichever register the word goes to. -/
theorem popped_executedTo (machine : Machine σ) (next : UInt32) (r : Register) :
    Popped machine (machine.executedTo next (.pop r.id)) :=
  ⟨rfl, rfl, register_executedTo_pop machine next r .sp⟩

/-- How the operations of a machine are those of a list. An operation that is refused leaves the
machine as it was. -/
structure ActsAsList (machine : Machine σ) : Prop where
  /-- With four bytes below the stack pointer, `push` puts the word that its register held before
  the step on top of the others. -/
  push : ∀ programSize r next, machine.Executes (.push (Register.id r)) next →
    4 ≤ machine.register .sp →
    ∃ pushed, (step programSize).run machine = .ok .next pushed ∧
      pushed.Becomes (machine.register r :: machine.stack) (machine.stackCount + wordBytes)
        fun s => if s = .ip then next
          else if s = .sp then machine.register .sp - 4 else machine.register s
  push_refused : ∀ programSize r next, machine.Executes (.push (Register.id r)) next →
    ¬ 4 ≤ machine.register .sp →
    (step programSize).run machine = .error .stackOverflow machine
  /-- With a word on the stack and the stack pointer not below the program's bound, `pop` takes the
  top into its register. In the instruction pointer and the stack pointer it does not stay: these
  move on as with any other register. -/
  pop : ∀ programSize r next value rest, machine.Executes (.pop (Register.id r)) next →
    machine.stack = value :: rest → programSize.toUInt32 ≤ machine.register .sp →
    ∃ popped, (step programSize).run machine = .ok .next popped ∧
      popped.Becomes rest (machine.stackCount - wordBytes)
        fun s => if s = .ip then next
          else if s = .sp then machine.register .sp + 4
          else if s = r then value else machine.register s
  pop_empty : ∀ programSize r next, machine.Executes (.pop (Register.id r)) next →
    machine.stack = [] →
    (step programSize).run machine = .error .stackUnderflow machine
  pop_below : ∀ programSize r next, machine.Executes (.pop (Register.id r)) next →
    machine.stack ≠ [] → ¬ programSize.toUInt32 ≤ machine.register .sp →
    (step programSize).run machine = .error .stackOverflow machine
  hostPush : ∀ value, 4 ≤ machine.register .sp →
    ∃ pushed, (hostPush value).run machine = .ok () pushed ∧
      pushed.Becomes (value :: machine.stack) (machine.stackCount + wordBytes)
        fun s => if s = .sp then machine.register .sp - 4 else machine.register s
  hostPush_refused : ∀ value, ¬ 4 ≤ machine.register .sp →
    (Machine.hostPush value).run machine =
      .error (.invalidAddress (machine.register .sp - 4)) machine
  hostPop : ∀ value rest, machine.stack = value :: rest →
    ∃ popped, hostPop.run machine = .ok value popped ∧
      popped.Becomes rest (machine.stackCount - wordBytes)
        fun s => if s = .sp then machine.register .sp + 4 else machine.register s
  hostPop_empty : machine.stack = [] →
    Machine.hostPop.run machine = .error (.invalidAddress (machine.register .sp)) machine

namespace Stacked

/-- There is a word on the stack exactly if there is one at the stack pointer. -/
theorem ne_nil_iff (machine : Machine σ) :
    machine.stack ≠ [] ↔ machine.ram.holdsWord (machine.register .sp).toNat = true := by
  constructor
  · intro hne
    obtain ⟨value, rest, hstack⟩ := List.exists_cons_of_ne_nil hne
    exact (word?_of_stack hstack).1
  · intro hholds hnil
    rw [holdsWord_of_stack_eq_nil hnil] at hholds
    cases hholds

/-- The stack of a machine acts as a list of words. -/
theorem actsAsList (h : machine.Stacked) : machine.ActsAsList where
  push programSize r next hexecutes hroom := by
    refine ⟨_, ?_, (pushed_executedTo machine next r).becomes h hroom
      (register_executedTo_push machine next r)⟩
    rw [hexecutes.step_run (Register.forall_mem_map_id_lt [r]), permits, spans,
      guard_of_true (decide_eq_true hroom), guard_of_true (h.holdsWord_sub_iff.mpr hroom)]
    rfl
  push_refused programSize r next hexecutes hroom := by
    rw [hexecutes.step_run (Register.forall_mem_map_id_lt [r]), permits,
      guard_of_checked h.policy (decide_eq_false hroom)]
    rfl
  pop programSize r next value rest hexecutes hstack hbound := by
    -- The word at the stack pointer is the top of the list.
    obtain ⟨hholds, hread, -⟩ := word?_of_stack hstack
    refine ⟨_, ?_, (popped_executedTo machine next r).becomes h hstack fun s => ?_⟩
    · rw [hexecutes.step_run (Register.forall_mem_map_id_lt [r]), permits, guard_of_true hholds,
        guard_of_true (decide_eq_true hbound)]
      rfl
    · rw [register_executedTo_pop, hread]
  pop_empty programSize r next hexecutes hnil := by
    rw [hexecutes.step_run (Register.forall_mem_map_id_lt [r]), permits,
      guard_of_checked h.policy (holdsWord_of_stack_eq_nil hnil)]
    rfl
  pop_below programSize r next hexecutes hne hbound := by
    rw [hexecutes.step_run (Register.forall_mem_map_id_lt [r]), permits,
      guard_of_true ((ne_nil_iff machine).mp hne),
      guard_of_checked h.policy (decide_eq_false hbound)]
    rfl
  hostPush value hroom := by
    -- The host writes the word and moves the stack pointer, as the instruction does.
    let pushed := (machine.writeWord (machine.register .sp - 4) value).setRegister .sp
      (machine.register .sp - 4)
    have hregisters (s : Register) : pushed.register s =
        if s = .sp then machine.register .sp - 4 else machine.register s :=
      register_setRegister ..
    have hpushed : Pushed value machine pushed := ⟨rfl, rfl, hregisters .sp⟩
    refine ⟨pushed, ?_, hpushed.becomes h hroom hregisters⟩
    rw [hostPush_run, spans, guard_of_true (h.holdsWord_sub_iff.mpr hroom)]
    rfl
  hostPush_refused value hroom := by
    -- Below 4 the address wraps around to one that has no room for a word.
    have hholds : machine.ram.holdsWord (machine.register .sp - 4).toNat = false := by
      rw [← Bool.not_eq_true, h.holdsWord_sub_iff]
      exact hroom
    rw [hostPush_run, spans, guard_of_checked h.policy hholds]
    rfl
  hostPop value rest hstack := by
    obtain ⟨hholds, hread, -⟩ := word?_of_stack hstack
    let popped := machine.setRegister .sp (machine.register .sp + 4)
    have hregisters (s : Register) : popped.register s =
        if s = .sp then machine.register .sp + 4 else machine.register s :=
      register_setRegister ..
    have hpopped : Popped machine popped := ⟨rfl, rfl, hregisters .sp⟩
    refine ⟨popped, ?_, hpopped.becomes h hstack hregisters⟩
    rw [hostPop_run, hread, spans, guard_of_true hholds]
    rfl
  hostPop_empty hnil := by
    rw [hostPop_run, spans, guard_of_checked h.policy (holdsWord_of_stack_eq_nil hnil)]
    rfl

end Stacked

/-! ## Sessions -/

/-- What happens to the stack: a word is pushed, or the top is popped and given to a register or to
the host. A pop into the instruction pointer or the stack pointer gives it to nobody. -/
inductive StackEvent where
  | push (value : UInt32)
  | pop (delivered? : Option UInt32)
  deriving DecidableEq

namespace StackEvent

/-- What an event makes of a list of words, if it can happen to that list: a pop gives nothing but
the first of them. -/
def apply : StackEvent → List UInt32 → Option (List UInt32)
  | push value, words => some (value :: words)
  | pop delivered?, value :: words =>
    if delivered?.all (· = value) then some words else none
  | pop _, [] => none

/-- What a sequence of events, oldest first, makes of a list of words. -/
def replay (events : List StackEvent) (words : List UInt32) : Option (List UInt32) :=
  events.foldlM (fun words event => event.apply words) words

/-- The words that a sequence of events leaves more than it has found, in bytes. -/
def growth : List StackEvent → Int
  | [] => 0
  | push _ :: events => growth events + wordBytes
  | pop _ :: events => growth events - wordBytes

end StackEvent

/-- The word that `pop` has given to its register. -/
def delivered? (r : Register) (popped : Machine σ) : Option UInt32 :=
  if r = .ip ∨ r = .sp then none else some (popped.register r)

/-- The machines that come about by stack operations in any order, with what has happened to the
stack, oldest first. Between them there may be operations that are refused and anything else that
writes neither RAM nor the stack pointer. -/
inductive StackSession (initial : Machine σ) : List StackEvent → Machine σ → Prop where
  | start : StackSession initial [] initial
  | push {events : List StackEvent} {machine machine' : Machine σ} {programSize : UInt16}
      {r : Register} {next : UInt32} {flow : Flow} (h : StackSession initial events machine)
      (hexecutes : machine.Executes (.push r.id) next)
      (hstep : (step programSize).run machine = .ok flow machine') :
      StackSession initial (events ++ [.push (machine.register r)]) machine'
  | pop {events : List StackEvent} {machine machine' : Machine σ} {programSize : UInt16}
      {r : Register} {next : UInt32} {flow : Flow} (h : StackSession initial events machine)
      (hexecutes : machine.Executes (.pop r.id) next)
      (hstep : (step programSize).run machine = .ok flow machine') :
      StackSession initial (events ++ [.pop (delivered? r machine')]) machine'
  | hostPush {events : List StackEvent} {machine machine' : Machine σ} {value : UInt32}
      (h : StackSession initial events machine)
      (hrun : (hostPush value).run machine = .ok () machine') :
      StackSession initial (events ++ [.push value]) machine'
  | hostPop {events : List StackEvent} {machine machine' : Machine σ} {value : UInt32}
      (h : StackSession initial events machine) (hrun : hostPop.run machine = .ok value machine') :
      StackSession initial (events ++ [.pop (some value)]) machine'
  | refused {events : List StackEvent} {machine machine' : Machine σ} {programSize : UInt16}
      {fault : Fault} (h : StackSession initial events machine)
      (hstep : (step programSize).run machine = .error fault machine') :
      StackSession initial events machine'
  | hostPush_refused {events : List StackEvent} {machine machine' : Machine σ} {value : UInt32}
      {fault : Fault} (h : StackSession initial events machine)
      (hrun : (Machine.hostPush value).run machine = .error fault machine') :
      StackSession initial events machine'
  | hostPop_refused {events : List StackEvent} {machine machine' : Machine σ} {fault : Fault}
      (h : StackSession initial events machine)
      (hrun : Machine.hostPop.run machine = .error fault machine') :
      StackSession initial events machine'
  | other {events : List StackEvent} {machine machine' : Machine σ}
      (h : StackSession initial events machine) (hsame : SameStack machine machine') :
      StackSession initial events machine'

section

variable {initial : Machine σ} {events : List StackEvent} {words rest : List UInt32}

/-- One more event is replayed on what those before it leave. -/
theorem StackEvent.replay_concat (h : replay events words = some rest) (event : StackEvent) :
    replay (events ++ [event]) words = event.apply rest := by
  unfold replay at h ⊢
  rw [List.foldlM_append, h]
  cases happly : event.apply rest <;> simp [happly]

/-- The growth of events one after the other adds up. -/
theorem StackEvent.growth_append (events events' : List StackEvent) :
    growth (events ++ events') = growth events + growth events' := by
  induction events with
  | nil => simp [growth]
  | cons event events ih =>
    cases event <;> simp only [List.cons_append, growth, ih] <;> omega

/-- The list has as many words as fit between the stack pointer and the end of RAM. -/
theorem stackCount_div (machine : Machine σ) :
    machine.stackCount / wordBytes = machine.stack.length :=
  (Region.length_wordsFrom ..).symm

/-- A stack with a word on it has the bytes of one. -/
theorem le_stackCount (h : machine.stack = value :: rest) : wordBytes ≤ machine.stackCount := by
  have hdiv := machine.stackCount_div
  rw [h, List.length_cons] at hdiv
  exact Nat.le_of_not_lt fun hlt => by rw [Nat.div_eq_of_lt hlt] at hdiv; omega

/-- What has been kept when a session has come to a machine: the stack is what the events make of
the list that was there at first, and it has grown by what they leave. -/
structure Replayed (initial : Machine σ) (events : List StackEvent) (machine : Machine σ) :
    Prop where
  stacked : machine.Stacked
  stack : StackEvent.replay events initial.stack = some machine.stack
  stackCount : (machine.stackCount : Int) = initial.stackCount + StackEvent.growth events

namespace Replayed

variable {count : Nat} {registers : Register → UInt32}

/-- A push is one more event to replay. -/
theorem push (h : Replayed initial events machine)
    (hbecomes : machine'.Becomes (value :: machine.stack) (machine.stackCount + wordBytes)
      registers) :
    Replayed initial (events ++ [.push value]) machine' := by
  refine ⟨hbecomes.stacked, ?_, ?_⟩
  · rw [StackEvent.replay_concat h.stack, hbecomes.stack]
    rfl
  · rw [hbecomes.stackCount, StackEvent.growth_append, Int.natCast_add, h.stackCount]
    simp only [StackEvent.growth]
    omega

/-- A pop is one more event to replay, and it delivers the word on top. -/
theorem pop (h : Replayed initial events machine) (hstack : machine.stack = value :: rest)
    (hbecomes : machine'.Becomes rest (machine.stackCount - wordBytes) registers)
    {delivered? : Option UInt32} (hdelivered : delivered?.all (· = value) = true) :
    Replayed initial (events ++ [.pop delivered?]) machine' := by
  refine ⟨hbecomes.stacked, ?_, ?_⟩
  · rw [StackEvent.replay_concat h.stack, hbecomes.stack, hstack]
    exact if_pos hdelivered
  · rw [hbecomes.stackCount, StackEvent.growth_append, Int.natCast_sub (le_stackCount hstack),
      h.stackCount]
    simp only [StackEvent.growth]
    omega

/-- What leaves the stack alone is no event. -/
theorem same (h : Replayed initial events machine) (hsame : SameStack machine machine') :
    Replayed initial events machine' := by
  refine ⟨hsame.stacked h.stacked, ?_, ?_⟩
  · rw [hsame.stack]
    exact h.stack
  · rw [hsame.stackCount]
    exact h.stackCount

end Replayed

namespace ActsAsList

variable {programSize : UInt16} {r : Register} {next : UInt32} {flow : Flow}

/-- A `push` that completes had room. -/
theorem becomes_of_push (h : machine.ActsAsList) (hexecutes : machine.Executes (.push r.id) next)
    (hstep : (step programSize).run machine = .ok flow machine') :
    4 ≤ machine.register .sp ∧
      machine'.Becomes (machine.register r :: machine.stack) (machine.stackCount + wordBytes)
        fun s => if s = .ip then next
          else if s = .sp then machine.register .sp - 4 else machine.register s := by
  by_cases hroom : 4 ≤ machine.register .sp
  · obtain ⟨pushed, hpushed, hbecomes⟩ := h.push programSize r next hexecutes hroom
    cases hstep.symm.trans hpushed
    exact ⟨hroom, hbecomes⟩
  · cases hstep.symm.trans (h.push_refused programSize r next hexecutes hroom)

/-- A `pop` that completes had a word to pop. -/
theorem becomes_of_pop (h : machine.ActsAsList) (hexecutes : machine.Executes (.pop r.id) next)
    (hstep : (step programSize).run machine = .ok flow machine') :
    ∃ value rest, machine.stack = value :: rest ∧
      machine'.Becomes rest (machine.stackCount - wordBytes)
        fun s => if s = .ip then next
          else if s = .sp then machine.register .sp + 4
          else if s = r then value else machine.register s := by
  cases hstack : machine.stack with
  | nil => cases hstep.symm.trans (h.pop_empty programSize r next hexecutes hstack)
  | cons value rest =>
    by_cases hbound : programSize.toUInt32 ≤ machine.register .sp
    · obtain ⟨popped, hpopped, hbecomes⟩ :=
        h.pop programSize r next value rest hexecutes hstack hbound
      cases hstep.symm.trans hpopped
      exact ⟨value, rest, rfl, hbecomes⟩
    · have hne : machine.stack ≠ [] := by
        rw [hstack]
        exact List.cons_ne_nil value rest
      cases hstep.symm.trans (h.pop_below programSize r next hexecutes hne hbound)

end ActsAsList

/-- What a `pop` gives to its register was the top of the stack. -/
theorem Becomes.all_delivered? {r : Register} {next sp : UInt32} {count : Nat}
    (h : machine'.Becomes rest count fun s => if s = .ip then next else if s = .sp then sp
      else if s = r then value else machine.register s) :
    (delivered? r machine').all (· = value) = true := by
  unfold delivered?
  split
  · rfl
  · rename_i hne
    rw [Option.all_some, decide_eq_true_eq, h.register, if_neg fun hip => hne (.inl hip),
      if_neg fun hsp => hne (.inr hsp), if_pos rfl]

/-- Every session keeps to the list. -/
theorem StackSession.replayed (h : StackSession initial events machine)
    (hinitial : initial.Stacked) : Replayed initial events machine := by
  -- Each event is a push or a pop of the list, one that is refused, or none of these.
  induction h with
  | start => exact ⟨hinitial, rfl, (Int.add_zero _).symm⟩
  | push _ hexecutes hstep ih =>
    obtain ⟨-, hbecomes⟩ := ih.stacked.actsAsList.becomes_of_push hexecutes hstep
    exact ih.push hbecomes
  | pop _ hexecutes hstep ih =>
    obtain ⟨value, rest, hstack, hbecomes⟩ :=
      ih.stacked.actsAsList.becomes_of_pop hexecutes hstep
    exact ih.pop hstack hbecomes hbecomes.all_delivered?
  | @hostPush _ machine _ value _ hrun ih =>
    by_cases hroom : 4 ≤ machine.register .sp
    · obtain ⟨pushed, hpushed, hbecomes⟩ := ih.stacked.actsAsList.hostPush value hroom
      cases hrun.symm.trans hpushed
      exact ih.push hbecomes
    · cases hrun.symm.trans (ih.stacked.actsAsList.hostPush_refused value hroom)
  | @hostPop _ machine _ value _ hrun ih =>
    cases hstack : machine.stack with
    | nil => cases hrun.symm.trans (ih.stacked.actsAsList.hostPop_empty hstack)
    | cons top rest =>
      obtain ⟨popped, hpopped, hbecomes⟩ := ih.stacked.actsAsList.hostPop top rest hstack
      cases hrun.symm.trans hpopped
      exact ih.pop hstack hbecomes (decide_eq_true rfl)
  | refused _ hstep ih =>
    obtain ⟨-, rfl⟩ := step_eq_error_iff.mp hstep
    exact ih
  | @hostPush_refused _ machine _ value _ _ hrun ih =>
    by_cases hroom : 4 ≤ machine.register .sp
    · obtain ⟨pushed, hpushed, -⟩ := ih.stacked.actsAsList.hostPush value hroom
      cases hrun.symm.trans hpushed
    · cases hrun.symm.trans (ih.stacked.actsAsList.hostPush_refused value hroom)
      exact ih
  | @hostPop_refused _ machine _ _ _ hrun ih =>
    cases hstack : machine.stack with
    | nil =>
      cases hrun.symm.trans (ih.stacked.actsAsList.hostPop_empty hstack)
      exact ih
    | cons top rest =>
      obtain ⟨popped, hpopped, -⟩ := ih.stacked.actsAsList.hostPop top rest hstack
      cases hrun.symm.trans hpopped
  | other _ hsame ih => exact ih.same hsame

/-- A `pop` takes back what the `push` before it has put there: the stack and the stack pointer are
as they were, and its register has the word. -/
def PopUndoesPush (machine : Machine σ) : Prop :=
  ∀ programSize programSize' r r' next next' flow (pushed between : Machine σ),
    machine.Executes (.push (Register.id r)) next →
    (step programSize).run machine = .ok flow pushed → SameStack pushed between →
    between.Executes (.pop (Register.id r')) next' →
    programSize'.toUInt32 ≤ between.register .sp →
    ∃ popped, (step programSize').run between = .ok .next popped ∧
      popped.stack = machine.stack ∧ popped.register .sp = machine.register .sp ∧
      (r' ≠ .ip → r' ≠ .sp → popped.register r' = machine.register r)

/-- Where there is room to push, a pop after it undoes the push. -/
theorem Stacked.popUndoesPush (h : machine.Stacked) : machine.PopUndoesPush := by
  intro programSize programSize' r r' next next' flow pushed between hpush hstep hsame hpop hbound
  obtain ⟨hroom, hpushed⟩ := h.actsAsList.becomes_of_push hpush hstep
  have hstack : between.stack = machine.register r :: machine.stack := by
    rw [hsame.stack, hpushed.stack]
  have hbetween : between.Stacked := hsame.stacked hpushed.stacked
  obtain ⟨popped, hpopped, hbecomes⟩ :=
    hbetween.actsAsList.pop programSize' r' next' _ _ hpop hstack hbound
  refine ⟨popped, hpopped, hbecomes.stack, ?_, fun hip hsp => ?_⟩
  · have hsp : between.register .sp = machine.register .sp - 4 := by
      rw [hsame.sp, hpushed.register]
      rfl
    rw [hbecomes.register, if_neg (by decide), if_pos rfl, hsp, UInt32.sub_add_cancel]
  · rw [hbecomes.register, if_neg hip, if_neg hsp, if_pos rfl]

/-- The stack of a machine is a list. From a checked machine whose stack pointer is inside RAM or at
its end, a session of pushes and pops by instructions and by the host leads to another one. Its
stack is what the same events make of a list, with each pop giving the first word of it; it takes
as many bytes as the stack at first and what the events leave; and every further operation is again
one of the list. -/
theorem stack_refines_list (hinitial : initial.Stacked)
    (h : StackSession initial events machine) :
    machine.Stacked ∧ StackEvent.replay events initial.stack = some machine.stack ∧
      (machine.stackCount : Int) = initial.stackCount + StackEvent.growth events ∧
      machine.stackCount / wordBytes = machine.stack.length ∧
      machine.ActsAsList ∧ machine.PopUndoesPush := by
  have hreplayed := h.replayed hinitial
  exact ⟨hreplayed.stacked, hreplayed.stack, hreplayed.stackCount, machine.stackCount_div,
    hreplayed.stacked.actsAsList, hreplayed.stacked.popUndoesPush⟩

end

/-- A machine with room for two words that pushes its own stack pointer and pops it elsewhere. -/
def spilling : Machine Unit :=
  create .checked ⟨0, #[5, 18, 6, 1], by decide⟩ ⟨0x8000, .replicate 10 0, by decide⟩ 0

/-- The host pushes a word before the program does, is refused another one, and pops its word after
the program has popped its own. -/
theorem stack_refines_list_spilling :
    ∃ filled emptied, StackSession spilling [.push 7, .push 6] filled ∧ filled.stack = [6, 7] ∧
      StackSession spilling [.push 7, .push 6, .pop (some 6), .pop (some 7)] emptied ∧
      emptied.stack = [] ∧ emptied.stackCount = 0 ∧ emptied.ActsAsList := by
  have hspilling : spilling.Stacked := ⟨rfl, by decide⟩
  obtain ⟨machine1, machine2, machine3, machine4, hrun1, hexecutes1, hsp1, hrun2, hrefused,
      hexecutes2, hrun3, hr1, hrun4⟩ : ∃ machine1 machine2 machine3 machine4,
      (hostPush 7).run spilling = .ok () machine1 ∧
      machine1.Executes (.push Register.sp.id) 2 ∧ machine1.register .sp = 6 ∧
      (step 0).run machine1 = .ok .next machine2 ∧
      (hostPush 8).run machine2 = .error (.invalidAddress 0xFFFFFFFE) machine2 ∧
      machine2.Executes (.pop Register.r1.id) 4 ∧
      (step 0).run machine2 = .ok .next machine3 ∧ delivered? .r1 machine3 = some 6 ∧
      hostPop.run machine3 = .ok 7 machine4 :=
    ⟨_, _, _, _, rfl, ⟨rfl, rfl⟩, rfl, rfl, rfl, ⟨rfl, rfl⟩, rfl, rfl, rfl⟩
  have hfilled := StackSession.push (.hostPush .start hrun1) hexecutes1 hrun2
  rw [hsp1] at hfilled
  have hemptied :=
    StackSession.hostPop (.pop (.hostPush_refused hfilled hrefused) hexecutes2 hrun3) hrun4
  rw [hr1] at hemptied
  obtain ⟨-, hstack, -⟩ := stack_refines_list hspilling hfilled
  obtain ⟨-, hstack', hcount, -, hacts, -⟩ := stack_refines_list hspilling hemptied
  exact ⟨machine2, machine4, hfilled, (Option.some.inj hstack).symm, hemptied,
    (Option.some.inj hstack').symm, Int.ofNat.inj hcount, hacts⟩

end RegisterMachine.Machine
