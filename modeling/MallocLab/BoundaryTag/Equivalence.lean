import MallocLab.BoundaryTag.Clients

/-! # Packages that follow one policy

Two packages whose policies and prologues are the same represent one heap in
two ways. No client can tell them apart.
-/

namespace MallocLab

open Program Blocks

namespace Procedures

variable {First Second Index : Type}

/-- Two packages with one abstract allocator. -/
structure Alike (first : Procedures First Index) (second : Procedures Second Index) : Prop where
  policy : second.policy = first.policy
  prologue : second.prologue = first.prologue

/-- Two clients hold the same blocks of one heap. -/
structure Together (first : Procedures First Index) (second : Procedures Second Index)
    (client : Client First) (partner : Client Second) (layout : Layout Index) : Prop where
  serves : first.Serves client layout
  partnerServes : second.Serves partner layout
  memStartBrk : partner.machine.memStartBrk = client.machine.memStartBrk
  live : partner.live = client.live

section Equivalence

variable {first : Procedures First Index} {second : Procedures Second Index}
  {interface : Interface First} {other : Interface Second} {empty : Index}
  {client after : Client First} {partner : Client Second} {layout : Layout Index}
  {request : Request}

theorem Serves.written (serves : first.Serves client layout) (written : client.Written after) :
    first.Serves after layout ∧ after.live = client.live ∧
      after.machine.memStartBrk = client.machine.memStartBrk := by
  induction written with
  | refl => exact ⟨serves, rfl, rfl⟩
  | tail _ write induction =>
      rcases write with ⟨address, value, writable, rfl⟩
      exact ⟨induction.1.write value writable, induction.2⟩

theorem Together.written {ready : Client First} {partnerReady : Client Second}
    (together : Together first second client partner layout) (written : client.Written ready)
    (partnerWritten : partner.Written partnerReady) :
    Together first second ready partnerReady layout := by
  rcases together.serves.written written with ⟨serves, live, start⟩
  rcases together.partnerServes.written partnerWritten with
    ⟨partnerServes, partnerLive, partnerStart⟩
  exact ⟨serves, partnerServes, by rw [start, partnerStart, together.memStartBrk],
    by rw [live, partnerLive, together.live]⟩

variable (alike : Alike first second) (correct : first.Correct) (otherCorrect : second.Correct)
  (exposes : first.Exposes interface empty) (otherExposes : second.Exposes other empty)
  (mmRealloc : interface.mmRealloc = first.mmRealloc)
  (otherRealloc : other.mmRealloc = second.mmRealloc)

include alike

theorem Alike.next (base : Nat) (layout : Layout Index) (request : Request) :
    second.next base layout request = first.next base layout request := by
  cases request <;> simp [Procedures.next, room, alike.policy, alike.prologue]

theorem Together.base (together : Together first second client partner layout) :
    second.base partner.machine = first.base client.machine := by
  simp [Procedures.base, Machine.first, Machine.origin, together.memStartBrk, alike.prologue]

/-- The break is where the common heap ends. -/
theorem Together.memBrk (together : Together first second client partner layout) :
    partner.machine.memBrk = client.machine.memBrk := by
  rw [together.serves.holds.extent, together.partnerServes.holds.extent, together.memStartBrk,
    alike.prologue]

include correct otherCorrect exposes otherExposes

theorem Together.permitted_iff (together : Together first second client partner layout) :
    other.Permitted partner request ↔ interface.Permitted client request := by
  have noWrap : ∀ {size : Nat}, size < 2 ^ 31 →
      (other.NoWrap partner.machine size ↔ interface.NoWrap client.machine size) := by
    intro size small
    rw [noWrap_iff correct exposes together.serves small,
      noWrap_iff otherCorrect otherExposes together.partnerServes small]
    simp only [NoWrap, alike.policy, together.memBrk alike]
  cases request with
  | malloc size => exact and_congr_right noWrap
  | free ptr => simp [Interface.Permitted, together.live]
  | realloc ptr size =>
      simp only [Interface.Permitted, together.live]
      exact and_congr_right fun _ => and_congr_right noWrap

include mmRealloc otherRealloc

/-- A request has one result for both, and they still agree afterwards. -/
theorem Together.step (together : Together first second client partner layout)
    (permitted : interface.Permitted client request) :
    ∃ result after partnerAfter, interface.perform request client = some (result, after) ∧
      other.perform request partner = some (result, partnerAfter) ∧
      Together first second after partnerAfter
        (first.next (first.base client.machine) layout request).2 := by
  have alsoPermitted :=
    (together.permitted_iff alike correct otherCorrect exposes otherExposes).mpr permitted
  rcases perform_request correct exposes together.serves (fun _ => mmRealloc) permitted with
    ⟨result, after, outcome, performed⟩
  rcases perform_request otherCorrect otherExposes together.partnerServes
    (fun _ => otherRealloc) alsoPermitted with ⟨value, partnerAfter, partnerOutcome, partnered⟩
  have next : second.next (second.base partner.machine) layout request =
      first.next (first.base client.machine) layout request := by
    rw [together.base alike, alike.next]
  have same : value = result := by rw [performed.result, partnered.result, next]
  subst same
  refine ⟨value, after, partnerAfter, outcome, partnerOutcome, performed.serves, ?_, ?_, ?_⟩
  · rw [← next]
    exact partnered.serves
  · rw [performed.memStartBrk, partnered.memStartBrk, together.memStartBrk]
  · rw [perform_live outcome, perform_live partnerOutcome, together.live]

/-! ## Whole runs -/

variable {arena : Machine First} {otherArena : Machine Second} {requests : List Request}
  {log otherLog : List (Nat × Nat)}

omit correct otherCorrect mmRealloc otherRealloc in
theorem init_together (isEmpty : arena.Empty)
    (otherEmpty : otherArena.Empty) (same : otherArena.memStartBrk = arena.memStartBrk) :
    ∃ after partnerAfter layout, interface.mmInit arena = some (0, after) ∧
      other.mmInit otherArena = some (0, partnerAfter) ∧
      Together first second ⟨after, []⟩ ⟨partnerAfter, []⟩ layout := by
  rcases exposes.mmInit isEmpty with ⟨_, after, outcome, rfl, holds, start⟩
  rcases otherExposes.mmInit otherEmpty with
    ⟨_, partnerAfter, partnerOutcome, rfl, partnerHolds, partnerStart⟩
  have starts : partnerAfter.memStartBrk = after.memStartBrk := by
    rw [start, partnerStart, same]
  have base : second.base partnerAfter = first.base after := by
    simp [Procedures.base, Machine.first, Machine.origin, starts, alike.prologue]
  rw [base, alike.policy] at partnerHolds
  refine ⟨after, partnerAfter, _, outcome, partnerOutcome, ⟨holds, .refl []⟩,
    ⟨partnerHolds, .refl []⟩, starts, rfl⟩

/-- Two runs of the same requests agree on all that was seen. -/
theorem run_together (isEmpty : arena.Empty)
    (otherEmpty : otherArena.Empty) (same : otherArena.memStartBrk = arena.memStartBrk)
    (run : Run interface arena requests log client)
    (otherRun : Run other otherArena requests otherLog partner) :
    otherLog = log ∧ ∃ layout, Together first second client partner layout := by
  induction run generalizing otherLog partner with
  | init returned =>
      cases otherRun with
      | init otherReturned =>
          rcases init_together alike exposes otherExposes isEmpty otherEmpty same with
            ⟨_, _, layout, outcome, partnerOutcome, together⟩
          rw [returned] at outcome
          rw [otherReturned] at partnerOutcome
          cases outcome
          cases partnerOutcome
          exact ⟨rfl, layout, together⟩
  | request _ written permitted performed induction =>
      cases otherRun with
      | request otherRun otherWritten _ otherPerformed =>
          rcases induction otherRun with ⟨rfl, layout, together⟩
          rcases (together.written written otherWritten).step alike correct otherCorrect exposes
            otherExposes mmRealloc otherRealloc permitted with
            ⟨_, _, _, outcome, partnerOutcome, next⟩
          rw [performed] at outcome
          rw [otherPerformed] at partnerOutcome
          cases outcome
          cases partnerOutcome
          exact ⟨by rw [next.memBrk alike], _, next⟩

/-- Whatever one package does on some requests, the other does too. -/
theorem exists_run (isEmpty : arena.Empty)
    (otherEmpty : otherArena.Empty) (same : otherArena.memStartBrk = arena.memStartBrk)
    (run : Run interface arena requests log client) :
    ∃ partner layout, Run other otherArena requests log partner ∧
      Together first second client partner layout := by
  induction run with
  | init returned =>
      rcases init_together alike exposes otherExposes isEmpty otherEmpty same with
        ⟨_, partnerAfter, layout, outcome, partnerOutcome, together⟩
      rw [returned] at outcome
      cases outcome
      exact ⟨_, layout, .init partnerOutcome, together⟩
  | request _ written permitted performed induction =>
      rcases induction with ⟨partner, layout, otherRun, together⟩
      have ready := together.written written .refl
      rcases ready.step alike correct otherCorrect exposes otherExposes mmRealloc otherRealloc
        permitted with ⟨_, _, partnerAfter, outcome, partnerOutcome, next⟩
      rw [performed] at outcome
      cases outcome
      have alsoPermitted :=
        (ready.permitted_iff alike correct otherCorrect exposes otherExposes).mpr permitted
      refine ⟨partnerAfter, _, ?_, next⟩
      rw [← next.memBrk alike]
      exact .request otherRun .refl alsoPermitted partnerOutcome

end Equivalence

end Procedures

end MallocLab
