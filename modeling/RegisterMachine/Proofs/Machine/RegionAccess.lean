import RegisterMachine.Proofs.Machine.Resetting
import RegisterMachine.Proofs.Memory.Coherence

/-!
# What becomes of the regions

ROM stays as it is, and RAM is turned into something else only by words that are written, bytes that
the host lays over it, and resets: in one step (`Event.Completes.turnsInto`), in a run
(`Leads.turnsInto`) and in a session (`turnsInto_afterSession`). So a region that has been placed is
accessed coherently whatever the machine and its host do (`words_are_accessed_coherently`).
-/

namespace RegisterMachine

/-- An instruction writes at most one word of RAM. -/
theorem Machine.turnsInto_changed {σ : Type} (machine : Machine σ) (next : UInt32)
    (instruction : Instruction) :
    machine.ram.TurnsInto (machine.changed next instruction).ram := by
  cases instruction with
  | push src => exact .writeWord .refl _ _
  | store address src => exact .writeWord .refl _ _
  | syscall code =>
    have hram : (machine.interrupted code).ram = machine.ram := by
      rw [machine.interrupted_eq code]
    change machine.ram.TurnsInto (machine.interrupted code).ram
    rw [hram]
    exact .refl
  | _ => exact .refl

/-- A step turns RAM into what it leaves by at most one word that is written. -/
theorem Event.Completes.turnsInto {σ : Type} {event : Event σ} {programSize : UInt16}
    (h : event.Completes programSize) : event.before.ram.TurnsInto event.after.ram := by
  rcases h.after_cases with ⟨-, hafter⟩ | ⟨-, hafter⟩
  · rw [hafter, Machine.ram_leaving]
    exact .refl
  · rw [hafter, Machine.ram_leaving]
    exact event.before.turnsInto_changed event.next event.instruction

namespace Machine

variable {σ : Type} {machine final : Machine σ} {events : List (Event σ)} {programSize : UInt16}

/-- The steps of a run turn RAM into what it is at the end. -/
theorem Leads.turnsInto (h : Leads programSize machine events final) :
    machine.ram.TurnsInto final.ram := by
  induction h with
  | none => exact .refl
  | last hcompletes => exact hcompletes.turnsInto
  | next hcompletes _ _ ih => exact hcompletes.turnsInto.trans ih

/-- Whatever the host does once, RAM is turned into what it is then by what can be done to a region.
-/
theorem turnsInto_afterAction (machine : Machine σ) (action : Action σ) :
    machine.ram.TurnsInto (machine.afterAction action).ram := by
  cases action with
  | run fuel programSize budget =>
    rw [afterAction_run]
    exact (leads_run fuel programSize budget machine).turnsInto
  | reset => exact .clear .refl
  | setRegister register value => exact .refl
  | setHandler handler => exact .refl
  | setRegisterById id value =>
    rw [afterAction, Action.perform, ending_map (fun _ => Answer.done), setRegisterById_run]
    cases Register.ofId id <;> exact .refl
  | push value =>
    rw [afterAction, Action.perform, ending_map (fun _ => Answer.done), hostPush_run]
    cases machine.spans (machine.register .sp - 4) with
    | error fault => exact .refl
    | ok granted => exact .writeWord .refl _ _
  | pop =>
    rw [afterAction, Action.perform, ending_map, hostPop_run]
    cases machine.spans (machine.register .sp) <;> exact .refl
  | patch address bytes =>
    rw [afterAction, Action.perform, ending_map, patch_run]
    cases machine.locate address with
    | ram offset => exact .overwrite .refl _ _
    | rom offset => exact .refl
    | unmapped => exact .refl

/-- Whatever a host does with a machine, RAM is turned into what it is then by what can be done to a
region. -/
theorem turnsInto_afterSession (machine : Machine σ) (actions : List (Action σ)) :
    machine.ram.TurnsInto (machine.afterSession actions).ram := by
  induction actions generalizing machine with
  | nil => exact .refl
  | cons action actions ih =>
    rw [afterSession_cons]
    exact (machine.turnsInto_afterAction action).trans (ih _)

/-- No session changes ROM. -/
theorem rom_afterSession (machine : Machine σ) (actions : List (Action σ)) :
    (machine.afterSession actions).rom = machine.rom :=
  (made_eq_iff.mp (machine.made_afterSession actions)).2.1

/-- The guard on words of RAM is the calculation with words. -/
theorem ramHoldsWord_run (machine : Machine σ) (offset : UInt32) :
    (Exec.ramHoldsWord offset).run machine = .ok (machine.ram.fitsWord offset) machine := rfl

end Machine

/-- Words of a region that has been placed are accessed coherently. Whatever is done to the region,
it keeps its place and its size. At every offset the guard, the bytes, reading and writing agree on
whether there is a word, and a word that is written shows in its own bytes and in no others. What a
machine and its host do to the region in any session is of that kind, and the guard of the machine
is the one meant. -/
theorem words_are_accessed_coherently {base : UInt16} {bytes : Array UInt8} {region : Region}
    (h : Region.place base bytes = .ok region) :
    (∀ later, region.TurnsInto later →
      Region.KeepsPlace base bytes later ∧ ∀ offset, later.CoherentAt offset) ∧
    ∀ (σ : Type) (machine : Machine σ) (actions : List (Action σ)),
      let later := machine.afterSession actions
      (machine.rom = region → later.rom = region) ∧
        (machine.ram = region → region.TurnsInto later.ram) ∧
        ∀ offset, (Exec.ramHoldsWord offset).run later = .ok (later.ram.fitsWord offset) later := by
  refine ⟨fun later hlater => ⟨?_, later.coherentAt⟩, fun σ machine actions => ⟨?_, ?_, ?_⟩⟩
  · exact hlater.keepsPlace (Region.keepsPlace_of_place h)
  · rintro rfl
    exact machine.rom_afterSession actions
  · rintro rfl
    exact machine.turnsInto_afterSession actions
  · exact (machine.afterSession actions).ramHoldsWord_run

/-- RAM that the host and the program have written to, with a word across what the two have written.
Behind the last word there is none, and none where the calculation would wrap around. -/
theorem words_are_accessed_coherently_meddling :
    Region.place 0x8000 (.replicate 8 0) = .ok Machine.callingWithRam.ram ∧
      let later := (Machine.callingWithRam.afterSession Machine.meddling).ram
      later.bytes = #[0, 1, 2, 0, 7, 0, 0, 0] ∧ later.word? 1 = some 0x07000201 ∧
        later.fitsWord 4 = true ∧ later.fitsWord 5 = false ∧ later.fitsWord 0xFFFFFFFD = false ∧
        Region.KeepsPlace 0x8000 (.replicate 8 0) later ∧ ∀ offset, later.CoherentAt offset := by
  have hplace : Region.place 0x8000 (.replicate 8 0) = .ok Machine.callingWithRam.ram := rfl
  obtain ⟨hregion, hmachine⟩ := words_are_accessed_coherently hplace
  obtain ⟨-, hram, -⟩ := hmachine _ Machine.callingWithRam Machine.meddling
  obtain ⟨hkeeps, hcoherent⟩ := hregion _ (hram rfl)
  exact ⟨hplace, rfl, rfl, rfl, rfl, rfl, hkeeps, hcoherent⟩

end RegisterMachine
