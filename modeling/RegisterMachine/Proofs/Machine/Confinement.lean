import RegisterMachine.Proofs.Machine.History

/-!
# Where control may go

A checked machine fetches inside ROM alone, and a step that completes leaves the instruction pointer
inside ROM or at its end: what follows an instruction is bounded by the fetch, and the target of a
jump or a call by a guard of its own (`destination_le`). The exception is `ret`, which goes to the
return address without a guard.

So on a machine whose instruction pointer is not written by the host (`Unsteered`) the instruction
pointer leaves ROM by a `ret` alone: where it is outside, the last step that the machine has
completed was that `ret`, and every further step is refused (`ip_leaves_rom_only_by_return`). It
does leave ROM where a program overwrites its return address (`straying`).
-/

namespace RegisterMachine

/-- The instructions that go to an address of their own, but for `ret`. -/
def Instruction.jumps : Instruction → Bool
  | .call _ | .jmp _ | .jr _ => true
  | _ => false

namespace Machine

variable {σ : Type} {machine : Machine σ} {programSize : UInt16} {instruction : Instruction}
  {next : UInt32}

/-! ## One step -/

/-- What a checked machine fetches starts inside ROM and ends there. -/
theorem fetched_le (hpolicy : machine.policy = .checked)
    (h : machine.fetched = .ok (instruction, next)) :
    (machine.register .ip).toNat < machine.rom.size ∧ next.toNat ≤ machine.rom.size := by
  obtain ⟨rest, hfirst, hnext⟩ := (fetched_eq_ok_iff hpolicy).mp h
  have hlength := congrArg List.length (Instruction.decodeFirst_eq_some_iff.mp hfirst)
  rw [List.length_drop, List.length_append, Array.length_toList, Instruction.length_encode,
    Opcode.encodedLength] at hlength
  rw [Instruction.length_encode, Opcode.encodedLength] at hnext
  unfold Region.size
  omega

/-- A jump has one condition of its own, that its target lies in ROM. -/
theorem permits_of_jumps (h : instruction.jumps = true) (next : UInt32) :
    machine.permits programSize instruction =
      machine.reaches (machine.destination next instruction) := by
  cases instruction with
  | call target | jmp target | jr src => rfl
  | _ => cases h

/-- An instruction that is neither a jump nor a `ret` nor a `halt` goes on behind itself. -/
theorem destination_of_not_jumps (h : instruction.jumps = false) (hret : instruction ≠ .ret)
    (hhalt : instruction ≠ .halt) (machine : Machine σ) (next : UInt32) :
    machine.destination next instruction = next := by
  cases instruction with
  | call target | jmp target | jr src => cases h
  | ret => exact absurd rfl hret
  | halt => exact absurd rfl hhalt
  | _ => rfl

/-- Where a checked machine goes on is inside ROM or at its end, but for a `ret`. -/
theorem destination_le (hpolicy : machine.policy = .checked) (hskip : machine.skipPending = false)
    (h : machine.verdict programSize = .ok (instruction, next)) (hret : instruction ≠ .ret) :
    (machine.destination next instruction).toNat ≤ machine.rom.size := by
  obtain ⟨hip, hnext⟩ := fetched_le hpolicy (fetched_of_verdict h)
  cases hjumps : instruction.jumps with
  | true =>
    have hpermits := permits_of_verdict hskip h
    rw [permits_of_jumps hjumps next] at hpermits
    exact Nat.le_of_lt (of_decide_eq_true (of_guard_eq_ok hpolicy hpermits))
  | false =>
    by_cases hhalt : instruction = .halt
    · subst hhalt
      exact Nat.le_of_lt hip
    · rw [destination_of_not_jumps hjumps hret hhalt]
      exact hnext

/-- A jump outside ROM names a register that exists, if it names one. -/
theorem knowsRegisters_of_jumps (h : instruction.jumps = true)
    (hpositive : 0 < (machine.destination next instruction).toNat) :
    machine.knowsRegisters instruction.registerIds = .ok () := by
  cases instruction with
  | call target | jmp target => rfl
  | jr src =>
    refine knowsRegisters_of_forall_lt machine fun id hid => Nat.lt_of_not_le fun hcount => ?_
    obtain rfl := List.mem_singleton.mp hid
    -- What is not a register reads as zero.
    have hread : machine.registers.read id = 0 := by
      unfold Registers.read
      rw [Vector.getElem?_eq_none hcount]
      rfl
    change 0 < (machine.registers.read id &&& 0xFFFF).toNat at hpositive
    rw [hread] at hpositive
    exact absurd hpositive (by decide)
  | _ => cases h

/-- A checked machine refuses a jump to an address outside ROM and stays where it is. -/
theorem step_jump_outside (hpolicy : machine.policy = .checked)
    (hskip : machine.skipPending = false) (h : machine.fetched = .ok (instruction, next))
    (hjumps : instruction.jumps = true)
    (houtside : machine.rom.size ≤ (machine.destination next instruction).toNat) :
    (step programSize).run machine =
      .error (.invalidAddress (machine.destination next instruction)) machine := by
  have hpositive := Nat.lt_of_lt_of_le (Nat.zero_lt_of_lt (fetched_le hpolicy h).1) houtside
  have hreaches : machine.reaches (machine.destination next instruction) =
      .error (.invalidAddress (machine.destination next instruction)) :=
    guard_of_checked hpolicy (decide_eq_false (Nat.not_lt_of_le houtside)) _
  rw [step_eq_error_iff, verdict_of_fetched h, hskip, if_neg Bool.false_ne_true,
    knowsRegisters_of_jumps hjumps hpositive, permits_of_jumps hjumps next, hreaches]
  exact ⟨rfl, rfl⟩

/-- A checked machine takes no step outside ROM. -/
theorem step_outside (hpolicy : machine.policy = .checked)
    (h : machine.rom.size ≤ (machine.register .ip).toNat) (programSize : UInt16) :
    (step programSize).run machine =
      .error (.invalidAddress (machine.register .ip)) machine := by
  rw [step_eq_error_iff]
  unfold verdict
  rw [fetched_at_end hpolicy h]
  exact ⟨rfl, rfl⟩

/-- A step that completes on a checked machine leaves the instruction pointer inside ROM or at its
end, or it is a `ret` that is not skipped and leaves it at the return address. -/
theorem register_ip_after_le (hpolicy : machine.policy = .checked)
    (h : machine.verdict programSize = .ok (instruction, next)) :
    ((machine.after next instruction).register .ip).toNat ≤ machine.rom.size ∨
      machine.skipPending = false ∧ instruction = .ret ∧
        (machine.after next instruction).register .ip = machine.register .ra := by
  rw [register_ip_after]
  cases hskip : machine.skipPending with
  | true =>
    rw [if_pos rfl]
    exact .inl (fetched_le hpolicy (fetched_of_verdict h)).2
  | false =>
    rw [if_neg Bool.false_ne_true]
    by_cases hret : instruction = .ret
    · subst hret
      exact .inr ⟨rfl, rfl, rfl⟩
    · exact .inl (destination_le hpolicy hskip h hret)

/-! ## Runs -/

/-- A checked machine with a ROM. -/
structure CheckedOn (rom : Region) (machine : Machine σ) : Prop where
  policy : machine.policy = .checked
  rom : machine.rom = rom

/-- The machines that a host comes to which runs a checked machine and does not write its
instruction pointer, with the log of the steps that their runs have completed since the last reset.
Between runs the host may change anything else but ROM: RAM, the other registers and the handler
among it. -/
inductive Unsteered (rom : Region) : List (Event σ) → Machine σ → Prop where
  | reset {machine : Machine σ} (h : machine.CheckedOn rom) : Unsteered rom [] machine.reset
  | host {events : List (Event σ)} {machine machine' : Machine σ}
      (h : Unsteered rom events machine) (hchecked : machine'.CheckedOn rom)
      (hip : machine'.register .ip = machine.register .ip) : Unsteered rom events machine'
  | run {events : List (Event σ)} {machine : Machine σ} (h : Unsteered rom events machine)
      (fuel : Nat) (programSize : UInt16) (budget : UInt32) :
      Unsteered rom (events ++ history programSize (stepLimit fuel budget) machine)
        (ending ((run fuel programSize budget).run machine))

variable {rom : Region} {events earlier : List (Event σ)} {final : Machine σ}

/-- A machine that has just been created is one of them. -/
theorem Unsteered.create (rom ram : Region) (stackSize : UInt16) :
    Unsteered rom [] (create .checked rom ram stackSize : Machine σ) :=
  .reset ⟨rfl, rfl⟩

/-- A machine with the same policy and the same ROM is checked on it too. -/
theorem CheckedOn.of_fixed_eq (h : machine.CheckedOn rom) (hfixed : final.fixed = machine.fixed) :
    final.CheckedOn rom :=
  ⟨(congrArg Prod.fst hfixed).trans h.policy, (congrArg (·.2.1) hfixed).trans h.rom⟩

/-- The machines stay checked on their ROM. -/
theorem Unsteered.checkedOn (h : Unsteered rom events machine) : machine.CheckedOn rom := by
  induction h with
  | reset h => exact ⟨h.policy, h.rom⟩
  | host _ hchecked _ _ => exact hchecked
  | run _ fuel programSize budget ih =>
    exact ih.of_fixed_eq (leads_run fuel programSize budget _).fixed

/-- The last step of a list of them has executed a `ret`, with an address in the return address
register. -/
def EndsReturningTo (events : List (Event σ)) (address : UInt32) : Prop :=
  ∃ event, events.getLast? = some event ∧ event.Executes .ret ∧
    event.before.register .ra = address

/-- The instruction pointer is inside ROM or at its end, or the last step was a `ret` that has taken
it where it is. -/
def Confined (rom : Region) (events : List (Event σ)) (machine : Machine σ) : Prop :=
  (machine.register .ip).toNat ≤ rom.size ∨ EndsReturningTo events (machine.register .ip)

/-- A step on a checked machine takes the instruction pointer out of ROM by a `ret` alone. -/
theorem le_or_ret_of_completes {event : Event σ} (h : event.Completes programSize)
    (hchecked : event.before.CheckedOn rom) :
    (event.after.register .ip).toNat ≤ rom.size ∨
      event.Executes .ret ∧ event.before.register .ra = event.after.register .ip := by
  obtain ⟨hverdict, -, hafter⟩ := Event.completes_iff.mp h
  rw [hafter, register_leaving, ← hchecked.rom]
  rcases register_ip_after_le hchecked.policy hverdict with hle | ⟨hskip, hret, hra⟩
  · exact .inl hle
  · exact .inr ⟨⟨hskip, hret⟩, hra.symm⟩

/-- Steps keep the instruction pointer confined: where they leave it is for the last of them to say,
if there are any. -/
theorem Leads.confined (h : Leads programSize machine events final)
    (hchecked : machine.CheckedOn rom) (hearlier : Confined rom earlier machine) :
    Confined rom (earlier ++ events) final := by
  rw [h.eq_getLast?]
  unfold Confined EndsReturningTo at hearlier ⊢
  rw [List.getLast?_append]
  cases hlast : events.getLast? with
  | none => exact hearlier
  | some event =>
    have hmem := List.mem_of_getLast? hlast
    have hbefore := hchecked.of_fixed_eq (h.fixed_before hmem)
    rcases le_or_ret_of_completes (h.completes hmem) hbefore with hle | ⟨hret, hra⟩
    · exact .inl hle
    · exact .inr ⟨event, rfl, hret, hra⟩

/-- Runs, and what the host does between them, keep the instruction pointer confined. -/
theorem Unsteered.confined (h : Unsteered rom events machine) : Confined rom events machine := by
  induction h with
  | reset h =>
    left
    rw [register_reset_of_ne _ (by decide)]
    exact Nat.zero_le _
  | host _ _ hip ih =>
    unfold Confined
    rw [hip]
    exact ih
  | run h fuel programSize budget ih =>
    exact (leads_run fuel programSize budget _).confined h.checkedOn ih

/-- Control leaves ROM by a `ret` alone. On a checked machine whose instruction pointer the host
does not write, the instruction pointer is inside ROM or at its end, or the last step of the machine
was a `ret` that has taken it to the return address of that time; outside ROM every run is refused
at once, and a jump or a call that would go there is refused itself. -/
theorem ip_leaves_rom_only_by_return (h : Unsteered rom events machine) :
    ((machine.register .ip).toNat ≤ rom.size ∨ EndsReturningTo events (machine.register .ip)) ∧
    (rom.size ≤ (machine.register .ip).toNat → ∀ fuel programSize budget,
      (run (fuel + 1) programSize budget).run machine =
        .error (.invalidAddress (machine.register .ip)) machine) ∧
    ∀ programSize instruction next, machine.skipPending = false →
      Exec.fetch.run machine = .ok (instruction, next) machine → instruction.jumps = true →
      rom.size ≤ (machine.destination next instruction).toNat →
      (step programSize).run machine =
        .error (.invalidAddress (machine.destination next instruction)) machine := by
  obtain ⟨hpolicy, rfl⟩ := h.checkedOn
  refine ⟨h.confined, fun houtside fuel programSize budget => ?_,
    fun programSize instruction next hskip hfetch hjumps houtside => ?_⟩
  · exact (Concludes.fault (step_outside hpolicy houtside programSize)).run_run fuel budget
  · rw [fetch_run] at hfetch
    rcases hfetched : machine.fetched with fault | taken
    · rw [hfetched] at hfetch
      cases hfetch
    · rw [hfetched] at hfetch
      cases hfetch
      exact step_jump_outside hpolicy hskip hfetched hjumps houtside

/-- A machine that overwrites its return address and returns. -/
def straying : Machine Unit :=
  bare ⟨0, #[3, 19, 100, 0, 0, 0, 8], by decide⟩

/-- The straying machine has just been created. -/
theorem unsteered_straying : Unsteered straying.rom [] straying :=
  .create ..

/-- The machine that strays is paused outside ROM after two steps, of which the second is its `ret`,
and every run after that is refused. -/
theorem ip_leaves_rom_only_by_return_straying :
    ∃ strayed, (run 0 0 2).run straying = .ok (some .paused) strayed ∧
      strayed.register .ip = 100 ∧ EndsReturningTo (history 0 2 straying) 100 ∧
      ∀ fuel budget,
        (run (fuel + 1) 0 budget).run strayed = .error (.invalidAddress 100) strayed := by
  obtain ⟨strayed, hrun, hip, hending⟩ : ∃ strayed,
      (run 0 0 2).run straying = .ok (some .paused) strayed ∧ strayed.register .ip = 100 ∧
        ending ((run 0 0 2).run straying) = strayed := ⟨_, rfl, rfl, rfl⟩
  have hunsteered : Unsteered straying.rom (history 0 2 straying) strayed := by
    rw [← hending]
    exact unsteered_straying.run 0 0 2
  obtain ⟨hreturns, hrefused, -⟩ := ip_leaves_rom_only_by_return hunsteered
  rw [hip] at hreturns hrefused
  exact ⟨strayed, hrun, hip, hreturns.resolve_left (by decide),
    fun fuel budget => hrefused (by decide) fuel 0 budget⟩

/-- The instruction pointer is not always inside ROM or at its end. -/
theorem ip_can_leave_rom :
    ¬ ∀ (rom : Region) (events : List (Event Unit)) (machine : Machine Unit),
      Unsteered rom events machine → (machine.register .ip).toNat ≤ rom.size := by
  intro h
  have hle := h straying.rom _ _ (unsteered_straying.run 0 0 2)
  exact absurd hle (by decide)

end Machine

end RegisterMachine
