import MallocLab.Foundation.LinkedList
import MallocLab.Memlib

/-! # Links of free blocks

The first payload word of a listed block points backward and the second
forward, in every package of the repository. On aligned nodes writing a link
updates one of two functions at one place.
-/

namespace MallocLab

namespace Machine

variable {Statics : Type}

def pred (machine : Machine Statics) (node : Nat) : Nat := machine.load node

def succ (machine : Machine Statics) (node : Nat) : Nat := machine.load (node + 4)

def setPred (machine : Machine Statics) (node value : Nat) : Machine Statics :=
  machine.store node value

def setSucc (machine : Machine Statics) (node value : Nat) : Machine Statics :=
  machine.store (node + 4) value

section Fields

variable (machine : Machine Statics) (node value : Nat)

@[simp] theorem setPred_memStartBrk :
    (machine.setPred node value).memStartBrk = machine.memStartBrk := rfl
@[simp] theorem setPred_memBrk :
    (machine.setPred node value).memBrk = machine.memBrk := rfl
@[simp] theorem setPred_memMaxAddr :
    (machine.setPred node value).memMaxAddr = machine.memMaxAddr := rfl
@[simp] theorem setPred_statics :
    (machine.setPred node value).statics = machine.statics := rfl
@[simp] theorem setSucc_memStartBrk :
    (machine.setSucc node value).memStartBrk = machine.memStartBrk := rfl
@[simp] theorem setSucc_memBrk :
    (machine.setSucc node value).memBrk = machine.memBrk := rfl
@[simp] theorem setSucc_memMaxAddr :
    (machine.setSucc node value).memMaxAddr = machine.memMaxAddr := rfl
@[simp] theorem setSucc_statics :
    (machine.setSucc node value).statics = machine.statics := rfl

end Fields

variable {machine : Machine Statics} {node other value : Nat}

theorem pred_setPred (word : value < 2 ^ 32) (aligned : node % 8 = 0)
    (otherAligned : other % 8 = 0) :
    (machine.setPred node value).pred other =
      if other = node then value else machine.pred other :=
  machine.bytes.load_store word (by omega) (by omega)

theorem succ_setSucc (word : value < 2 ^ 32) (aligned : node % 8 = 0)
    (otherAligned : other % 8 = 0) :
    (machine.setSucc node value).succ other =
      if other = node then value else machine.succ other := by
  have updated := machine.bytes.load_store word
    (show (node + 4) % 4 = 0 by omega) (show (other + 4) % 4 = 0 by omega)
  simp only [Nat.add_right_cancel_iff] at updated
  exact updated

theorem succ_setPred (aligned : node % 8 = 0) (otherAligned : other % 8 = 0) :
    (machine.setPred node value).succ other = machine.succ other :=
  machine.load_store_of_disjoint value (by omega)

theorem pred_setSucc (aligned : node % 8 = 0) (otherAligned : other % 8 = 0) :
    (machine.setSucc node value).pred other = machine.pred other :=
  machine.load_store_of_disjoint value (by omega)

theorem setPred_bytes {address : Nat} (outside : address < node ∨ node + 8 ≤ address) :
    (machine.setPred node value).bytes address = machine.bytes address :=
  machine.store_bytes_of_outside value (by omega)

theorem setSucc_bytes {address : Nat} (outside : address < node ∨ node + 8 ≤ address) :
    (machine.setSucc node value).bytes address = machine.bytes address :=
  machine.store_bytes_of_outside value (by omega)

/-- The links of a node are determined by its first eight bytes. -/
theorem links_congr {changed : Machine Statics}
    (same : ∀ address, node ≤ address → address < node + 8 →
      changed.bytes address = machine.bytes address) :
    changed.pred node = machine.pred node ∧ changed.succ node = machine.succ node :=
  ⟨Memory.load_congr fun address low high => same address low (by omega),
    Memory.load_congr fun address low high => same address (by omega) (by omega)⟩

end Machine

/-- A chain survives every change outside the link words of its nodes. -/
theorem Linked.of_same_links {Statics : Type} {machine other : Machine Statics}
    {nodes : List Nat} (linked : Linked machine.pred machine.succ nodes)
    (same : ∀ node ∈ nodes, ∀ address, node ≤ address → address < node + 8 →
      other.bytes address = machine.bytes address) :
    Linked other.pred other.succ nodes := by
  apply linked.congr
  · intro node member
    exact (Machine.links_congr (same node (List.dropLast_subset _ member))).2
  · intro node member
    exact (Machine.links_congr (same node (List.tail_subset _ member))).1

end MallocLab
