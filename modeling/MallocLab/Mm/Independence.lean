import MallocLab.BoundaryTag.Relocation
import MallocLab.Mm.Requests

/-! # Placement in `mm.c` does not depend on data

Neither what the arena held before, nor what clients store, nor where the arena
lies has an influence on the offsets that `mm.c` returns.
-/

namespace MallocLab.Mm

open Program Blocks Explicit

theorem find_move (distance size : Nat) (free : List (Nat × Nat)) :
    lifo.find (free.map (moveEntry distance)) size = (lifo.find free size).map (· + distance) := by
  have same : (fun entry : Nat × Nat => decide (size ≤ entry.2)) ∘ moveEntry distance =
      fun entry => decide (size ≤ entry.2) := rfl
  simp only [lifo]
  rw [List.find?_map, same, Option.map_map, Option.map_map]
  rfl

def lifoMovable : lifo.Movable where
  move distance free := free.map (moveEntry distance)
  add _ _ _ := rfl
  remove distance _ _ := (List.map_erase (moveEntry_injective distance) _).symm
  find distance free size := find_move distance size free

/-- The same calls return the same offsets and leave the break at the same
offset, on any two empty arenas with any contents, whatever the clients write. -/
theorem placement_independent {arena otherArena : State} (isEmpty : arena.Empty)
    (otherEmpty : otherArena.Empty) {calls : List Call} {log otherLog : List (Nat × Nat)}
    {client partner : Client Statics} (issued : Issued interface arena calls log client)
    (otherIssued : Issued interface otherArena calls otherLog partner) :
    otherLog.map (seen otherArena.memStartBrk) = log.map (seen arena.memStartBrk) ∧
      (partner.machine.memBrk : Int) - otherArena.memStartBrk =
        (client.machine.memBrk : Int) - arena.memStartBrk := by
  have moveEmpty : ∀ distance, lifoMovable.move distance [] = [] := fun _ => rfl
  rcases Procedures.issued_parallel correct exposes rfl moveEmpty isEmpty otherEmpty issued
    otherIssued with ⟨_, together, start, otherStart, same⟩
  refine ⟨same, ?_⟩
  rw [← start, ← otherStart]
  exact together.memBrk

/-- A first request of a hundred bytes leaves the rest of the chunk in the list. -/
theorem serveAt_initial (base : Nat) :
    (Layout.initial lifo base []).serveAt lifo base (base + 4) 100 =
      ⟨chunk.serve 100, [(base + 116, 3984)]⟩ := by
  have whole : cut (base + 4) base [chunk] = ([], [chunk]) := if_pos rfl
  have listed : lifo.remove [(base + 4, 4096)] (base + 4, 4096) = [] := List.erase_cons_head ..
  simp only [Layout.serveAt, Layout.initial, whole, Layout.allot, total_nil, Nat.add_zero]
  change Layout.mk (chunk.serve 100) (_ :: lifo.remove [(base + 4, 4096)] (base + 4, 4096)) = _
  rw [listed]
  rfl

/-- On every empty arena a client can ask for two blocks, write into the second
and give the first one back. -/
theorem exists_issued {arena : State} (isEmpty : arena.Empty) (value : UInt8) :
    ∃ log client, Issued interface arena [.free 0, .malloc 50, .malloc 100] log client ∧
      log.map Prod.fst = [null, arena.memStartBrk + 136, arena.memStartBrk + 24] ∧
      client.machine.bytes (arena.memStartBrk + 136) = value := by
  rcases mmInit_holds isEmpty with ⟨_, machine, outcome, rfl, holds, start⟩
  have base : procedures.base machine = arena.memStartBrk + 20 := by
    rw [Procedures.base, Machine.first, Machine.origin, start]
    rfl
  rw [base] at holds
  have serves : procedures.Serves ⟨machine, []⟩
      (Layout.initial lifo (arena.memStartBrk + 20) []) := ⟨holds, base ▸ .refl []⟩
  rcases Procedures.perform_found correct exposes serves (by decide : 100 ≠ 0) (by decide) rfl with
    ⟨first, permitted, performed, firstServes, firstLive, firstStart⟩
  rw [base, show procedures.policy = lifo from rfl, serveAt_initial] at firstServes
  rcases Procedures.perform_found correct exposes firstServes (by decide : 50 ≠ 0) (by decide) rfl
    with ⟨second, secondPermitted, secondPerformed, secondServes, secondLive, _⟩
  rw [firstLive] at secondLive
  -- The client writes into the block that the second request returned.
  have inside : second.Writable (arena.memStartBrk + 136) :=
    ⟨_, secondLive ▸ List.mem_cons_self, by simp, by simp⟩
  have writtenServes := secondServes.write value inside
  have freed : interface.Permitted (second.write (arena.memStartBrk + 136) value)
      (.free (arena.memStartBrk + 24)) :=
    List.mem_map.mpr ⟨_, secondLive ▸ List.mem_cons_of_mem _ List.mem_cons_self, rfl⟩
  rcases Procedures.perform_free correct exposes writtenServes freed with
    ⟨result, last, lastPerformed, done⟩
  have others := done.others _ (secondLive ▸ List.mem_cons_self) (by simp [Request.target?]) 0
    (Nat.succ_pos _)
  have isNull : result = null := done.result
  subst isNull
  refine ⟨_, last, .call (.call (.call (.init outcome) .refl permitted performed) .refl
    secondPermitted secondPerformed) (.single ⟨_, value, inside, rfl⟩) freed lastPerformed, rfl, ?_⟩
  exact others.trans (if_pos rfl)

/-- Two runs with different contents and different writes. -/
theorem placement_independent_offset : ∃ log otherLog client partner,
    Issued interface arena [.free 0, .malloc 50, .malloc 100] log client ∧
      Issued interface (memInit 64 (fun _ => 255) ⟨7⟩) [.free 0, .malloc 50, .malloc 100]
        otherLog partner ∧
      log.map Prod.fst = [null, 144, 32] ∧ otherLog.map Prod.fst = [null, 200, 88] ∧
      client.machine.bytes 144 = 1 ∧ partner.machine.bytes 200 = 2 ∧
      otherLog.map (seen 64) = log.map (seen 8) ∧
      (partner.machine.memBrk : Int) - 64 = (client.machine.memBrk : Int) - 8 := by
  have otherEmpty : (memInit 64 (fun _ => 255) ⟨7⟩ : State).Empty :=
    ⟨by decide, by decide, rfl, rfl, by decide⟩
  rcases exists_issued arena_empty 1 with ⟨log, client, issued, results, byte⟩
  rcases exists_issued otherEmpty 2 with ⟨otherLog, partner, otherIssued, otherResults, otherByte⟩
  exact ⟨log, otherLog, client, partner, issued, otherIssued, results, otherResults, byte, otherByte,
    placement_independent arena_empty otherEmpty issued otherIssued⟩

end MallocLab.Mm
