import MallocLab.BoundaryTag.Macros

/-! # Clients of an allocator

A client knows the pointers it was given and has not given back, each with the
size it last requested. It calls the functions of `mm.h` with these pointers
and writes into the bytes it requested, in any order.
-/

namespace MallocLab

open Program

/-- The functions of `mm.h`, with what decides how far `mm_malloc` moves the
break: the block size it computes and the search that comes first. -/
structure Interface (Statics : Type) where
  mmInit : Program (Machine Statics) Int
  mmMalloc : Nat → Program (Machine Statics) Nat
  mmFree : Nat → Program (Machine Statics) Unit
  mmRealloc : Nat → Nat → Program (Machine Statics) Nat
  findFit : Nat → Program (Machine Statics) Nat
  blockSize : Nat → Nat

structure Client (Statics : Type) where
  machine : Machine Statics
  live : List (Nat × Nat)

inductive Request
  | malloc (size : Nat)
  | free (ptr : Nat)
  | realloc (ptr size : Nat)
  deriving DecidableEq, Repr

namespace Request

/-- The block a request gives up. -/
def target? : Request → Option Nat
  | malloc _ => none
  | free ptr => some ptr
  | realloc ptr _ => some ptr

def isRealloc : Request → Bool
  | realloc _ _ => true
  | _ => false

/-- What a client holds once its request returned the result. -/
def liveAfter (live : List (Nat × Nat)) (result : Nat) : Request → List (Nat × Nat)
  | malloc size => if result = null then live else (result, size) :: live
  | free ptr => live.filter fun spot => spot.1 ≠ ptr
  | realloc ptr size =>
      if result = null then live
      else (result, size) :: live.filter fun spot => spot.1 ≠ ptr

end Request

variable {Statics : Type}

/-- The machine after a client stored one byte. -/
def Machine.setByte (machine : Machine Statics) (address : Nat) (value : UInt8) :
    Machine Statics :=
  { machine with bytes := fun other =>
      if other = address then value else machine.bytes other }

namespace Interface

variable (package : Interface Statics)

/-- The sum `mem_brk + incr` stays in the address space whenever the search
fails and the heap is to be extended. Sizes from `2 ^ 31` on are negative
increments, for which no sum is formed. -/
def NoWrap (machine : Machine Statics) (size : Nat) : Prop :=
  size ≠ 0 → ∀ after, package.findFit (package.blockSize size) machine = some (null, after) →
    let extendsize := max' (package.blockSize size) chunkSize
    extendsize < 2147483648 → machine.memBrk + extendsize < 2 ^ 32

/-- The requests a client may make. -/
def Permitted (client : Client Statics) : Request → Prop
  | .malloc size => size < 2 ^ 31 ∧ package.NoWrap client.machine size
  | .free ptr => ptr ∈ client.live.map Prod.fst
  | .realloc ptr size =>
      ptr ∈ client.live.map Prod.fst ∧ size < 2 ^ 31 ∧ package.NoWrap client.machine size

/-- A request, with what the client knows afterwards. The result of `mm_free`
is shown as the null pointer. -/
def perform : Request → Program (Client Statics) Nat
  | .malloc size => fun client =>
      (package.mmMalloc size client.machine).map fun outcome =>
        (outcome.1, ⟨outcome.2,
          if outcome.1 = null then client.live else (outcome.1, size) :: client.live⟩)
  | .free ptr => fun client =>
      (package.mmFree ptr client.machine).map fun outcome =>
        (null, ⟨outcome.2, client.live.filter fun spot => spot.1 ≠ ptr⟩)
  | .realloc ptr size => fun client =>
      (package.mmRealloc ptr size client.machine).map fun outcome =>
        (outcome.1, ⟨outcome.2,
          if outcome.1 = null then client.live
          else (outcome.1, size) :: client.live.filter fun spot => spot.1 ≠ ptr⟩)

end Interface

namespace Client

/-- The byte belongs to the requested range of a live block. -/
def Writable (client : Client Statics) (address : Nat) : Prop :=
  ∃ spot ∈ client.live, spot.1 ≤ address ∧ address < spot.1 + spot.2

def write (client : Client Statics) (address : Nat) (value : UInt8) : Client Statics :=
  { client with machine := client.machine.setByte address value }

/-- Any number of writes. -/
def Written : Client Statics → Client Statics → Prop :=
  Relation.ReflTransGen fun client after =>
    ∃ address value, client.Writable address ∧ after = client.write address value

end Client

/-- The clients a run can reach: `mm_init` returned zero on an empty arena,
and from then on permitted requests alternate with writes. -/
inductive Reachable (package : Interface Statics) (allowed : Request → Prop) :
    Client Statics → Prop
  | init {machine after : Machine Statics} : machine.Empty →
      package.mmInit machine = some (0, after) → Reachable package allowed ⟨after, []⟩
  | request {client after : Client Statics} {request : Request} {result : Nat} :
      Reachable package allowed client → allowed request → package.Permitted client request →
      package.perform request client = some (result, after) →
      Reachable package allowed after
  | write {client : Client Statics} {address : Nat} (value : UInt8) :
      Reachable package allowed client → client.Writable address →
      Reachable package allowed (client.write address value)

/-- Whatever the initial state establishes and every step preserves holds in
every run. -/
theorem Reachable.invariant {package : Interface Statics} {allowed : Request → Prop}
    (Holds : Client Statics → Prop)
    (initial : ∀ {machine after : Machine Statics}, machine.Empty →
      package.mmInit machine = some (0, after) → Holds ⟨after, []⟩)
    (request : ∀ {client after : Client Statics} {request : Request} {result : Nat},
      Holds client → allowed request → package.Permitted client request →
      package.perform request client = some (result, after) → Holds after)
    (write : ∀ {client : Client Statics} {address : Nat} (value : UInt8),
      Holds client → client.Writable address → Holds (client.write address value))
    {client : Client Statics} (reachable : Reachable package allowed client) :
    Holds client := by
  induction reachable with
  | init empty returned => exact initial empty returned
  | request _ allowed permitted performed induction =>
      exact request induction allowed permitted performed
  | write value _ writable induction => exact write value induction writable

/-- The runs on one arena, with what a client saw after each request: its
result and the break. The last request comes first. -/
inductive Run (package : Interface Statics) (arena : Machine Statics) :
    List Request → List (Nat × Nat) → Client Statics → Prop
  | init {after : Machine Statics} :
      package.mmInit arena = some (0, after) → Run package arena [] [] ⟨after, []⟩
  | request {requests : List Request} {log : List (Nat × Nat)}
      {client ready after : Client Statics} {request : Request} {result : Nat} :
      Run package arena requests log client → client.Written ready →
      package.Permitted ready request → package.perform request ready = some (result, after) →
      Run package arena (request :: requests) ((result, after.machine.memBrk) :: log) after

/-- A request that names a block by the number of calls before the one that
returned it. -/
inductive Call
  | malloc (size : Nat)
  | free (turn : Nat)
  | realloc (turn size : Nat)
  deriving DecidableEq, Repr

/-- The pointer a call returned, in a log whose last entry comes first. -/
def returned (log : List (Nat × Nat)) (turn : Nat) : Nat :=
  (log.reverse.map Prod.fst).getD turn null

/-- The request that a call stands for after what the log says. -/
def Call.request (log : List (Nat × Nat)) : Call → Request
  | .malloc size => .malloc size
  | .free turn => .free (returned log turn)
  | .realloc turn size => .realloc (returned log turn) size

/-- The runs on one arena in which the requests come from calls. -/
inductive Issued (package : Interface Statics) (arena : Machine Statics) :
    List Call → List (Nat × Nat) → Client Statics → Prop
  | init {after : Machine Statics} :
      package.mmInit arena = some (0, after) → Issued package arena [] [] ⟨after, []⟩
  | call {calls : List Call} {log : List (Nat × Nat)} {client ready after : Client Statics}
      {call : Call} {result : Nat} :
      Issued package arena calls log client → client.Written ready →
      package.Permitted ready (call.request log) →
      package.perform (call.request log) ready = some (result, after) →
      Issued package arena (call :: calls) ((result, after.machine.memBrk) :: log) after

/-- Calls are a way to write down requests. -/
theorem Issued.run {package : Interface Statics} {arena : Machine Statics} {calls : List Call}
    {log : List (Nat × Nat)} {client : Client Statics}
    (issued : Issued package arena calls log client) :
    ∃ requests, Run package arena requests log client := by
  induction issued with
  | init returned => exact ⟨[], .init returned⟩
  | call _ written permitted performed induction =>
      rcases induction with ⟨requests, run⟩
      exact ⟨_, .request run written permitted performed⟩

theorem Reachable.written {package : Interface Statics} {allowed : Request → Prop}
    {client after : Client Statics} (reachable : Reachable package allowed client)
    (written : client.Written after) : Reachable package allowed after := by
  induction written with
  | refl => exact reachable
  | tail _ write induction =>
      rcases write with ⟨address, value, writable, rfl⟩
      exact .write value induction writable

theorem Run.reachable {package : Interface Statics} {allowed : Request → Prop}
    {arena : Machine Statics} {requests : List Request} {log : List (Nat × Nat)}
    {client : Client Statics} (isEmpty : arena.Empty)
    (run : Run package arena requests log client)
    (allAllowed : ∀ request ∈ requests, allowed request) : Reachable package allowed client := by
  induction run with
  | init returned => exact .init isEmpty returned
  | request _ written permitted performed induction =>
      have before := induction fun request member =>
        allAllowed request (List.mem_cons_of_mem _ member)
      exact .request (before.written written) (allAllowed _ List.mem_cons_self) permitted
        performed

section Perform

variable {package : Interface Statics} {client : Client Statics}
  {goal : Nat → Client Statics → Prop}

theorem ensures_map {Value Result State Whole : Type} {program : Program State Value}
    {state : State} (lift : Value × State → Result × Whole) {whole : Whole}
    {mapped : Program Whole Result} {reached : Result → Whole → Prop}
    (shape : mapped whole = (program state).map lift)
    (ensured : Ensures program state fun value final =>
      reached (lift (value, final)).1 (lift (value, final)).2) :
    Ensures mapped whole reached := by
  rcases ensured with ⟨value, final, equal, holds⟩
  exact ⟨_, _, by rw [shape, equal]; rfl, holds⟩

theorem perform_live {request : Request} {result : Nat} {after : Client Statics}
    (performed : package.perform request client = some (result, after)) :
    after.live = request.liveAfter client.live result := by
  cases request <;>
    · rcases Option.map_eq_some_iff.mp performed with ⟨outcome, _, same⟩
      cases same
      rfl

theorem ensures_malloc {size : Nat}
    (ensured : Ensures (package.mmMalloc size) client.machine fun ptr machine =>
      goal ptr ⟨machine, if ptr = null then client.live else (ptr, size) :: client.live⟩) :
    Ensures (package.perform (.malloc size)) client goal :=
  ensures_map _ rfl ensured

theorem ensures_free {ptr : Nat}
    (ensured : Ensures (package.mmFree ptr) client.machine fun _ machine =>
      goal null ⟨machine, client.live.filter fun spot => spot.1 ≠ ptr⟩) :
    Ensures (package.perform (.free ptr)) client goal :=
  ensures_map _ rfl ensured

theorem ensures_realloc {ptr size : Nat}
    (ensured : Ensures (package.mmRealloc ptr size) client.machine fun new machine =>
      goal new ⟨machine, if new = null then client.live
        else (new, size) :: client.live.filter fun spot => spot.1 ≠ ptr⟩) :
    Ensures (package.perform (.realloc ptr size)) client goal :=
  ensures_map _ rfl ensured

end Perform

end MallocLab
