import MallocLab.BoundaryTag.Equivalence
import MallocLab.Mm.Runs
import MallocLab.Refer.Init

/-! # `mm.c` and `refer.c` are one allocator -/

namespace MallocLab.Explicit

theorem alike : Procedures.Alike Mm.procedures Refer.procedures := ⟨rfl, rfl⟩

theorem alike_symm : Procedures.Alike Refer.procedures Mm.procedures := ⟨rfl, rfl⟩

variable {arena : Mm.State} {otherArena : Refer.State}

/-- On the same empty arena both packages start, every run of one is matched by
a run of the other with the same log, and after the same requests, whatever
the clients wrote meanwhile, the logs, the live blocks and the breaks are the
same, the same requests are permitted, and each of them has one result. -/
theorem mm_refer_equivalent (isEmpty : arena.Empty) (otherEmpty : otherArena.Empty)
    (same : otherArena.memStartBrk = arena.memStartBrk) :
    (∃ client, Run Mm.interface arena [] [] client) ∧
    (∀ requests log, (∃ client, Run Mm.interface arena requests log client) ↔
      ∃ partner, Run Refer.interface otherArena requests log partner) ∧
    ∀ {requests log otherLog client partner ready partnerReady},
      Run Mm.interface arena requests log client →
      Run Refer.interface otherArena requests otherLog partner →
      client.Written ready → partner.Written partnerReady →
        otherLog = log ∧ partnerReady.live = ready.live ∧
        partnerReady.machine.memBrk = ready.machine.memBrk ∧
        ∀ request,
          (Refer.interface.Permitted partnerReady request ↔
            Mm.interface.Permitted ready request) ∧
          (Mm.interface.Permitted ready request → ∃ result after partnerAfter,
            Mm.interface.perform request ready = some (result, after) ∧
            Refer.interface.perform request partnerReady = some (result, partnerAfter) ∧
            partnerAfter.machine.memBrk = after.machine.memBrk) := by
  refine ⟨?_, fun requests log => ⟨?_, ?_⟩, ?_⟩
  · rcases Mm.exposes.mmInit isEmpty with ⟨_, after, outcome, rfl, _⟩
    exact ⟨_, .init outcome⟩
  · rintro ⟨client, run⟩
    rcases Procedures.exists_run alike Mm.correct Refer.correct Mm.exposes Refer.exposes rfl rfl
      isEmpty otherEmpty same run with ⟨partner, _, otherRun, _⟩
    exact ⟨partner, otherRun⟩
  · rintro ⟨partner, run⟩
    rcases Procedures.exists_run alike_symm Refer.correct Mm.correct Refer.exposes Mm.exposes rfl
      rfl otherEmpty isEmpty same.symm run with ⟨client, _, otherRun, _⟩
    exact ⟨client, otherRun⟩
  · intro requests log otherLog client partner ready partnerReady run otherRun written
      partnerWritten
    rcases Procedures.run_together alike Mm.correct Refer.correct Mm.exposes Refer.exposes rfl
      rfl isEmpty otherEmpty same run otherRun with ⟨sameLog, layout, together⟩
    have readyTogether := together.written written partnerWritten
    refine ⟨sameLog, readyTogether.live, readyTogether.memBrk alike, fun request =>
      ⟨readyTogether.permitted_iff alike Mm.correct Refer.correct Mm.exposes Refer.exposes,
        fun permitted => ?_⟩⟩
    rcases readyTogether.step alike Mm.correct Refer.correct Mm.exposes Refer.exposes rfl rfl
      permitted with ⟨result, after, partnerAfter, outcome, partnerOutcome, next⟩
    exact ⟨result, after, partnerAfter, outcome, partnerOutcome, next.memBrk alike⟩

/-- The run of `mm.c` with two live blocks is one of `refer.c` too. -/
theorem refer_two_live : ∃ partner,
    Run Refer.interface (memInit 8 (fun _ => 0) ⟨0⟩) [.malloc 50, .malloc 100]
      [(144, 4128), (32, 4128)] partner := by
  rcases Mm.exists_run with ⟨client, run, _⟩
  have otherEmpty : (memInit 8 (fun _ => 0) ⟨0⟩ : Refer.State).Empty :=
    ⟨by decide, by decide, rfl, rfl, by decide⟩
  exact ((mm_refer_equivalent Mm.arena_empty otherEmpty rfl).2.1 _ _).mp ⟨client, run⟩

end MallocLab.Explicit
