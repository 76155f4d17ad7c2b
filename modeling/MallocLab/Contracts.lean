import MallocLab.BoundaryTag.Contract
import MallocLab.Implicit.AddressOrder
import MallocLab.Implicit.Init
import MallocLab.Mm.Requests
import MallocLab.Refer.Init
import MallocLab.Segregated.Policy
import MallocLab.Segregated.Runs

/-! # The promises of the packages

`mm_realloc` of `segregated_list-85.c` is not the one that the other packages
share, so the promises of this package are about clients that resize no block.
-/

namespace MallocLab

open Program

theorem mm_contract : Contract Mm.interface (fun _ => True) 16 :=
  Procedures.contract_of_correct Mm.correct Mm.exposes Mm.lifo_exhaustive fun _ _ _ => rfl

/-- When a client of `mm.c` holds nothing, all space is in one free block. -/
theorem mm_drained {client : Client Mm.Statics} (reached : Mm.Reached client)
    (none : client.live = []) : client.machine.Sees (client.machine.memStartBrk + 8)
      [⟨client.machine.memStartBrk + 8, 16, 1⟩,
        ⟨client.machine.memStartBrk + 24,
          client.machine.memBrk - (client.machine.memStartBrk + 24), 0⟩] :=
  mm_contract.drained reached none

/-- Two blocks are given back. -/
theorem mm_drained_two_frees : ∃ client : Client Mm.Statics, Mm.Reached client ∧
    client.live = [] ∧ client.machine.Sees (client.machine.memStartBrk + 8)
      [⟨client.machine.memStartBrk + 8, 16, 1⟩,
        ⟨client.machine.memStartBrk + 24,
          client.machine.memBrk - (client.machine.memStartBrk + 24), 0⟩] := by
  rcases Mm.exists_reached with ⟨client, reached, live⟩
  have first : Mm.interface.Permitted client (.free 144) := by
    simp [Interface.Permitted, live]
  rcases mm_contract.responds reached trivial first with ⟨_, middle, outcome, _⟩
  have remaining : middle.live = [(32, 100)] := by
    rw [perform_live outcome, live]
    rfl
  have halfway : Mm.Reached middle := .request reached trivial first outcome
  have second : Mm.interface.Permitted middle (.free 32) := by
    simp [Interface.Permitted, remaining]
  rcases mm_contract.responds halfway trivial second with ⟨_, after, last, _⟩
  have nothing : after.live = [] := by
    rw [perform_live last, remaining]
    rfl
  have reached' : Mm.Reached after := .request halfway trivial second last
  exact ⟨after, reached', nothing, mm_drained reached' nothing⟩

theorem refer_contract : Contract Refer.interface (fun _ => True) 16 :=
  Procedures.contract_of_correct Refer.correct Refer.exposes Mm.lifo_exhaustive fun _ _ _ => rfl

theorem implicit_contract : Contract Implicit.interface (fun _ => True) 8 :=
  Procedures.contract_of_correct Implicit.correct Implicit.exposes
    Implicit.addressOrdered_exhaustive fun _ _ _ => rfl

theorem segregated_contract :
    Contract Segregated.interface (fun request => request.isRealloc = false) 8 :=
  Procedures.contract_of_correct Segregated.correct Segregated.exposes
    Segregated.segregated_exhaustive fun _ allowed isRealloc =>
      absurd (allowed.symm.trans isRealloc) Bool.false_ne_true

/-- Every package serves a request for at least one byte as long as the demands of
the run fit into the arena beside the tags. -/
theorem packages_roomy :
    Roomy Mm.interface (fun _ => True) 24 ∧ Roomy Refer.interface (fun _ => True) 24 ∧
      Roomy Implicit.interface (fun _ => True) 16 ∧
      Roomy Segregated.interface (fun request => request.isRealloc = false) 16 :=
  ⟨Procedures.roomy_of_correct Mm.correct Mm.exposes fun _ _ _ => rfl,
    Procedures.roomy_of_correct Refer.correct Refer.exposes fun _ _ _ => rfl,
    Procedures.roomy_of_correct Implicit.correct Implicit.exposes fun _ _ _ => rfl,
    Procedures.roomy_of_correct Segregated.correct Segregated.exposes
      fun _ allowed isRealloc => absurd (allowed.symm.trans isRealloc) Bool.false_ne_true⟩

end MallocLab
