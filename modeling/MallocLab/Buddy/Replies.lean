import MallocLab.Buddy.Runs

/-! # What clients see

A client sees the pointers it gets as offsets from `base_ptr`. Two machines that
hold the same tree answer alike, wherever their arenas lie and whatever else is
in them.
-/

namespace MallocLab.Buddy

open Program TreeNode

variable {machine after : State} {tree : Tree} {client first second : Client Statics}
  {blocks : List (TreeNode × Nat)} {block : TreeNode × Nat} {request ptr base otherBase : Nat}

/-- A call, or a write into a block. Blocks are named by offsets. -/
inductive Step
  | malloc (request : Nat)
  | free (offset : Nat)
  | write (offset : Nat) (value : UInt8)
  deriving DecidableEq, Repr

/-- A pointer as an offset from `base_ptr`. -/
def offsetOf (machine : State) (ptr : Nat) : Option Int :=
  if ptr = null then none else some ((ptr : Int) - machine.statics.basePtr)

/-- The byte belongs to what was requested of a live block. The sum of a request
that wraps has no such bytes. -/
def Touches (client : Client Statics) (address : Nat) : Prop :=
  ∃ spot ∈ client.live, spot.2 + headerSize ≤ maxAlloc ∧
    spot.1 ≤ address ∧ address < spot.1 + spot.2

/-- A step that returns, with what the client sees of the result. -/
inductive Does (client : Client Statics) : Step → Option Int → Client Statics → Prop
  | malloc {after : State} {request ptr : Nat} : request < 2 ^ 32 →
      mmMalloc request client.machine = some (ptr, after) →
      Does client (.malloc request) (offsetOf client.machine ptr)
        ⟨after, if ptr = null then client.live else (ptr, request) :: client.live⟩
  | free {after : State} {offset : Nat} :
      client.machine.statics.basePtr + offset ∈ client.live.map Prod.fst →
      mmFree (client.machine.statics.basePtr + offset) client.machine = some ((), after) →
      Does client (.free offset) none
        ⟨after, client.live.filter fun spot =>
          spot.1 ≠ client.machine.statics.basePtr + offset⟩
  | write {offset : Nat} {value : UInt8} :
      Touches client (client.machine.statics.basePtr + offset) →
      Does client (.write offset value) none
        (client.write (client.machine.statics.basePtr + offset) value)

/-- Steps one after the other. -/
inductive Plays : Client Statics → List Step → List (Option Int) → Client Statics → Prop
  | nil (client : Client Statics) : Plays client [] [] client
  | cons {client middle final : Client Statics} {step : Step} {reply : Option Int}
      {steps : List Step} {replies : List (Option Int)} :
      Does client step reply middle → Plays middle steps replies final →
      Plays client (step :: steps) (reply :: replies) final

/-- The replies to some steps. -/
def Replies (client : Client Statics) (steps : List Step) (replies : List (Option Int)) : Prop :=
  ∃ final, Plays client steps replies final

/-- What is requested is spanned. -/
def Step.Spanned (base : Nat) : Step → Prop
  | .malloc request => Buddy.Spanned base request
  | .free _ => True
  | .write _ _ => True

/-- The same steps get the same replies, as long as no addresses wrap. -/
def SameReplies (first second : Client Statics) : Prop :=
  ∀ steps replies, (∀ step ∈ steps, step.Spanned first.machine.memStartBrk ∧
    step.Spanned second.machine.memStartBrk) →
      (Replies first steps replies ↔ Replies second steps replies)

/-! ## Two machines with one tree -/

namespace Holds

/-- The reply is that of the tree. -/
theorem reply (holds : Holds client tree blocks)
    (allocated : Allocated client.machine (Tree.obtain maxHeap request tree) (blocks.map Prod.fst)
      request ptr after) :
    offsetOf client.machine ptr =
      (Tree.obtain maxHeap request tree).1.map fun node => ((node.start + headerSize : Nat) : Int) := by
  cases found : (Tree.obtain maxHeap request tree).1 with
  | none =>
      rw [allocated.failed found]
      rfl
  | some node =>
      have address := (allocated.found node found).1
      have base := holds.represents.tracks.lists.storage.base
      have notNull : ptr ≠ null := by
        rw [address]
        unfold null headerSize
        omega
      rw [offsetOf, if_neg notNull, address, base, addressOf, Option.map_some]
      congr 1
      push_cast
      omega

/-- A live block, by its offset. -/
theorem pointer (holds : Holds client tree blocks) (block : TreeNode × Nat) :
    client.machine.statics.basePtr + (block.1.start + headerSize) =
      addressOf client.machine block.1 + headerSize := by
  rw [holds.represents.tracks.lists.storage.base, addressOf, Nat.add_assoc]

theorem live_pointer (holds : Holds client tree blocks) (member : block ∈ blocks) :
    client.machine.statics.basePtr + (block.1.start + headerSize) ∈ client.live.map Prod.fst := by
  rw [holds.pointer block, holds.live, List.map_map]
  exact List.mem_map.mpr ⟨block, member, rfl⟩

/-- What an offset of a live block names. -/
theorem block_of_offset (holds : Holds client tree blocks) {offset : Nat}
    (live : client.machine.statics.basePtr + offset ∈ client.live.map Prod.fst) :
    ∃ block ∈ blocks, offset = block.1.start + headerSize := by
  rcases holds.block_of_live live with ⟨block, member, same⟩
  rw [← holds.pointer block] at same
  exact ⟨block, member, Nat.add_left_cancel same⟩

theorem touches_iff (holds : Holds client tree blocks) {offset : Nat} :
    Touches client (client.machine.statics.basePtr + offset) ↔
      ∃ block ∈ blocks, block.2 + headerSize ≤ maxAlloc ∧ block.1.start + headerSize ≤ offset ∧
        offset < block.1.start + headerSize + block.2 := by
  rw [Touches, holds.live]
  constructor
  · rintro ⟨spot, member, small, low, high⟩
    rcases List.mem_map.mp member with ⟨block, isBlock, rfl⟩
    have pointer := holds.pointer block
    unfold spot at *
    exact ⟨block, isBlock, small, by omega, by omega⟩
  · rintro ⟨block, member, small, low, high⟩
    have pointer := holds.pointer block
    refine ⟨spot client.machine block, List.mem_map_of_mem member, small, ?_, ?_⟩
    · unfold spot
      omega
    · unfold spot
      omega

/-- A write keeps to the payload of a block. -/
theorem touched (holds : Holds client tree blocks) {offset : Nat} (value : UInt8)
    (touches : Touches client (client.machine.statics.basePtr + offset)) :
    Holds (client.write (client.machine.statics.basePtr + offset) value) tree blocks := by
  rcases holds.touches_iff.mp touches with ⟨block, member, small, low, high⟩
  have pointer := holds.pointer block
  refine holds.written member small rfl rfl rfl rfl ?_
  intro byte outside
  apply if_neg
  rintro rfl
  unfold spot at outside
  omega

end Holds

/-! ## Lockstep -/

/-- The machines of the two clients hold one tree with the same blocks, in arenas that
begin at two addresses. -/
structure Alike (base otherBase : Nat) (first second : Client Statics) : Prop where
  start : first.machine.memStartBrk = base
  otherStart : second.machine.memStartBrk = otherBase
  holds : ∃ tree blocks, Holds first tree blocks ∧ Holds second tree blocks

namespace Alike

theorem symm (alike : Alike base otherBase first second) : Alike otherBase base second first := by
  rcases alike with ⟨start, otherStart, tree, blocks, holds, others⟩
  exact ⟨otherStart, start, tree, blocks, others, holds⟩

/-- A request is answered from the tree. -/
theorem malloc (alike : Alike base otherBase first second) (word : request < 2 ^ 32)
    (spanned : (Step.malloc request).Spanned base ∧ (Step.malloc request).Spanned otherBase)
    (returned : mmMalloc request first.machine = some (ptr, after)) :
    ∃ final, Does second (.malloc request) (offsetOf first.machine ptr) final ∧ Alike base otherBase
      ⟨after, if ptr = null then first.live else (ptr, request) :: first.live⟩ final := by
  rcases alike with ⟨rfl, rfl, tree, blocks, holds, others⟩
  by_cases accepted : wrap (request + headerSize) ≤ maxAlloc
  · have done := (holds.malloc word accepted (spanned.1 accepted)).of_eq returned
    rcases others.malloc word accepted (spanned.2 accepted) with
      ⟨otherPtr, otherAfter, otherReturned, otherDone⟩
    refine ⟨_, ?_, done.1.kept.start, otherDone.1.kept.start, _, _, done.2.2, otherDone.2.2⟩
    rw [holds.reply done.1, ← others.reply otherDone.1]
    exact .malloc word otherReturned
  · have beyond := mmMalloc_beyond (Nat.not_le.mp accepted)
    cases (beyond first.machine).symm.trans returned
    exact ⟨_, .malloc word (beyond second.machine), rfl, rfl, tree, blocks, holds, others⟩

theorem free {offset : Nat} (alike : Alike base otherBase first second)
    (live : first.machine.statics.basePtr + offset ∈ first.live.map Prod.fst)
    (returned : mmFree (first.machine.statics.basePtr + offset) first.machine = some ((), after)) :
    ∃ final, Does second (.free offset) none final ∧ Alike base otherBase
      ⟨after, first.live.filter fun spot => spot.1 ≠ first.machine.statics.basePtr + offset⟩
        final := by
  rcases alike with ⟨rfl, rfl, tree, blocks, holds, others⟩
  rcases holds.block_of_offset live with ⟨block, member, rfl⟩
  rw [holds.pointer block] at returned ⊢
  have done := (holds.free member).of_eq returned
  rcases others.free member with ⟨_, otherAfter, otherReturned, otherDone⟩
  rw [← others.pointer block] at otherReturned otherDone
  exact ⟨_, .free (others.live_pointer member) otherReturned, done.1.start, otherDone.1.start, _, _,
    done.2.2, otherDone.2.2⟩

theorem write {offset : Nat} (alike : Alike base otherBase first second) (value : UInt8)
    (touches : Touches first (first.machine.statics.basePtr + offset)) :
    ∃ final, Does second (.write offset value) none final ∧
      Alike base otherBase (first.write (first.machine.statics.basePtr + offset) value) final := by
  rcases alike with ⟨rfl, rfl, tree, blocks, holds, others⟩
  have otherTouches := others.touches_iff.mpr (holds.touches_iff.mp touches)
  exact ⟨_, .write otherTouches, rfl, rfl, tree, blocks, holds.touched value touches,
    others.touched value otherTouches⟩

theorem does {step : Step} {reply : Option Int} {next : Client Statics}
    (alike : Alike base otherBase first second)
    (spanned : step.Spanned base ∧ step.Spanned otherBase) (does : Does first step reply next) :
    ∃ final, Does second step reply final ∧ Alike base otherBase next final := by
  cases does with
  | malloc word returned => exact alike.malloc word spanned returned
  | free live returned => exact alike.free live returned
  | write touches => exact alike.write _ touches

theorem plays {steps : List Step} {replies : List (Option Int)} {last : Client Statics}
    (alike : Alike base otherBase first second)
    (spanned : ∀ step ∈ steps, step.Spanned base ∧ step.Spanned otherBase)
    (plays : Plays first steps replies last) :
    ∃ final, Plays second steps replies final ∧ Alike base otherBase last final := by
  induction plays generalizing second with
  | nil client => exact ⟨second, .nil second, alike⟩
  | cons does _ induction =>
      rw [List.forall_mem_cons] at spanned
      rcases alike.does spanned.1 does with ⟨middle, otherDoes, middleAlike⟩
      rcases induction middleAlike spanned.2 with ⟨final, otherPlays, finalAlike⟩
      exact ⟨final, .cons otherDoes otherPlays, finalAlike⟩

/-- Alike machines cannot be told apart. -/
theorem sameReplies (alike : Alike base otherBase first second) : SameReplies first second := by
  rcases alike with ⟨rfl, rfl, same⟩
  have alike : Alike _ _ first second := ⟨rfl, rfl, same⟩
  intro steps replies spanned
  constructor
  · rintro ⟨last, played⟩
    rcases alike.plays spanned played with ⟨final, otherPlayed, _⟩
    exact ⟨final, otherPlayed⟩
  · rintro ⟨last, played⟩
    rcases alike.symm.plays (fun step member => (spanned step member).symm) played with
      ⟨final, otherPlayed, _⟩
    exact ⟨final, otherPlayed⟩

end Alike

end MallocLab.Buddy
