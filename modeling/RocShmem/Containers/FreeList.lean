import Mathlib.Data.List.Nodup
import Mathlib.Logic.Function.Basic
import Mathlib.Tactic.Simps.Basic
import RocShmem.Lib.HeapList
import RocShmem.Lib.Transition

/-!
# The Free List

`FreeList<TYPE>` is a queue of values kept as a singly linked list of nodes
from `head_` to `tail_`, with a second list, `deallocated_nodes_`, of
nodes that `pop_front` gave back and that the device-side `push_back` reuses.
The host allocates nodes from its allocator; the device never allocates, so
a device push fails exactly when no node is recycled.

The nodes live in a heap, a function from addresses to nodes, with `next`
a pointer that may be null. The host allocator hands out fresh addresses
(`allocator`: the addresses below it are taken). Each operation runs alone:
the device operations hold the list's ticket lock, and the host operations
run before any kernel.

The representation invariant (`Wf l live recycled`) names the two lists:
the nodes `live` reached from `head_` and the nodes `recycled` reached
from `deallocated_nodes_`, both ending at null, sharing no node, all
allocated, with `tail_` the last live node. The queue is the data of the live
nodes (`Represents`); every operation keeps the invariant and acts on the
queue as a FIFO queue does.

## Main definitions

* `FreeList`: The list's fields and its node heap.
* `FreeList.pushBackHost`, `FreeList.pushBackDevice`, `FreeList.popFront`:
  The operations.
* `FreeList.Wf`, `FreeList.Represents`: The invariant and the queue.

## Theorems

* `FreeList.Wf.popFront`: A pop removes the first node and recycles it.
* `FreeList.Wf.insertNode`: A push links a node that neither list holds.
* `FreeList.wf_reachable`: The invariant holds in every reachable state.
* `free_list_fifo_queue`: The free list is a FIFO queue.
-/

namespace RocShmem

open HeapList Transition

/-- `FreeList::Node`. -/
structure Node (α : Type) where
  data : α
  next : Option Nat

/-- A `FreeList` with its node heap: `head_`, `tail_`, `deallocated_nodes_`,
    and the host allocator's first free address. -/
structure FreeList (α : Type) where
  nodes : Nat → Node α
  head : Option Nat
  tail : Option Nat
  deallocatedNodes : Option Nat
  allocator : Nat

namespace FreeList

variable {α : Type}

/-- The `next` field of every node. -/
def next (l : FreeList α) (a : Nat) : Option Nat := (l.nodes a).next

/-- `node->next = p`. -/
@[simps]
def setNext (l : FreeList α) (node : Nat) (p : Option Nat) : FreeList α :=
  { l with nodes := Function.update l.nodes node { l.nodes node with next := p } }

/-- `node->data = val`. -/
@[simps]
def setData (l : FreeList α) (node : Nat) (val : α) : FreeList α :=
  { l with nodes := Function.update l.nodes node { l.nodes node with data := val } }

/-- Host `allocate_node`: the allocator's next address. -/
def allocateNodeHost (l : FreeList α) : Option Nat × FreeList α :=
  (some l.allocator, { l with allocator := l.allocator + 1 })

/-- Device `allocate_node`: the first recycled node, unlinked. -/
def allocateNodeDevice (l : FreeList α) : Option Nat × FreeList α :=
  match l.deallocatedNodes with
  | none => (none, l)
  | some node => (some node, { l with deallocatedNodes := l.next node })

/-- `insert_node_at_tail`. -/
def insertNodeAtTail (l : FreeList α) (node : Nat) : FreeList α :=
  let l := match l.tail with
    | some t => l.setNext t (some node)
    | none => l
  let l := { l with tail := some node }
  if l.head = none then { l with head := some node } else l

/-- `deallocate_node`: push the node on the recycled list. -/
@[simps]
def deallocateNode (l : FreeList α) (node : Nat) : FreeList α :=
  { l.setNext node l.deallocatedNodes with deallocatedNodes := some node }

/-- `push_back`, with the host's or the device's `allocate_node`. -/
def pushBackWith (allocateNode : FreeList α → Option Nat × FreeList α) (l : FreeList α)
    (val : α) : Bool × FreeList α :=
  match allocateNode l with
  | (none, l) => (false, l)
  | (some node, l) => (true, ((l.setData node val).setNext node none).insertNodeAtTail node)

/-- Host `push_back`. -/
def pushBackHost (l : FreeList α) (val : α) : Bool × FreeList α :=
  pushBackWith allocateNodeHost l val

/-- Device `push_back`. -/
def pushBackDevice (l : FreeList α) (val : α) : Bool × FreeList α :=
  pushBackWith allocateNodeDevice l val

/-- `pop_front`: `{TYPE{}, false}` on an empty list. -/
def popFront [Inhabited α] (l : FreeList α) : (α × Bool) × FreeList α :=
  match l.head with
  | none => ((default, false), l)
  | some lastNode =>
    let l' := { l with head := l.next lastNode }
    -- if we removed all nodes, we should reset the tail
    let l' := if l'.head = none then { l' with tail := none } else l'
    (((l.nodes lastNode).data, true), l'.deallocateNode lastNode)

/-- The list the constructor makes: no node. -/
def init [Inhabited α] : FreeList α := ⟨fun _ => ⟨default, none⟩, none, none, none, 0⟩

theorem next_setNext (l : FreeList α) (node : Nat) (p : Option Nat) (a : Nat) :
    (l.setNext node p).next a = if a = node then p else l.next a := by
  by_cases h : a = node
  · subst h
    simp [next]
  · simp [next, h]

@[simp] theorem next_setData (l : FreeList α) (node : Nat) (val : α) :
    (l.setData node val).next = l.next := by
  funext a
  by_cases h : a = node
  · subst h
    simp [next]
  · simp [next, h]

@[simp] theorem data_setNext (l : FreeList α) (node : Nat) (p : Option Nat) (a : Nat) :
    ((l.setNext node p).nodes a).data = (l.nodes a).data := by
  by_cases h : a = node
  · subst h
    simp
  · simp [h]

theorem data_setData (l : FreeList α) (node : Nat) (val : α) (a : Nat) :
    ((l.setData node val).nodes a).data = if a = node then val else (l.nodes a).data := by
  by_cases h : a = node
  · subst h
    simp
  · simp [h]

theorem deallocateNode_next (l : FreeList α) (node a : Nat) :
    (l.deallocateNode node).next a = if a = node then l.deallocatedNodes else l.next a :=
  next_setNext l node l.deallocatedNodes a

theorem popFront_of_head_none [Inhabited α] {l : FreeList α} (h : l.head = none) :
    l.popFront = ((default, false), l) := by
  unfold popFront
  rw [h]

/-- What a pop of the node `a` at the head does to each field. -/
theorem popFront_of_head_some [Inhabited α] {l : FreeList α} {a : Nat} (h : l.head = some a) :
    l.popFront.1 = ((l.nodes a).data, true) ∧ l.popFront.2.head = l.next a ∧
      l.popFront.2.tail = (if l.next a = none then none else l.tail) ∧
      l.popFront.2.deallocatedNodes = some a ∧ l.popFront.2.allocator = l.allocator ∧
      l.popFront.2.next = (fun b => if b = a then l.deallocatedNodes else l.next b) ∧
      ∀ b, (l.popFront.2.nodes b).data = (l.nodes b).data := by
  unfold popFront
  rw [h]
  -- The pop changes the head, maybe the tail, and the `next` of `a` only.
  have hnext : ∀ l' : FreeList α, l'.next = l.next → l'.deallocatedNodes = l.deallocatedNodes →
      (l'.deallocateNode a).next = fun b => if b = a then l.deallocatedNodes else l.next b := by
    intro l' hn hd
    funext b
    rw [deallocateNode_next, hn, hd]
  by_cases hn : l.next a = none
  · simp only [hn, if_true]
    exact ⟨trivial, rfl, rfl, rfl, rfl, hnext _ rfl rfl, fun b => data_setNext _ _ _ b⟩
  · simp only [hn, if_false]
    exact ⟨trivial, rfl, rfl, rfl, rfl, hnext _ rfl rfl, fun b => data_setNext _ _ _ b⟩

/-- Linking `node` into an empty list makes it the head and the tail. -/
theorem insertNodeAtTail_of_empty {l : FreeList α} {node : Nat} (ht : l.tail = none)
    (hh : l.head = none) :
    l.insertNodeAtTail node = { l with head := some node, tail := some node } := by
  unfold insertNodeAtTail
  rw [ht]
  simp [hh]

/-- Linking `node` after the tail `t` of a list that has a head. -/
theorem insertNodeAtTail_of_tail {l : FreeList α} {node t : Nat} (ht : l.tail = some t)
    (hh : l.head ≠ none) :
    l.insertNodeAtTail node = { l.setNext t (some node) with tail := some node } := by
  unfold insertNodeAtTail
  rw [ht]
  simp [hh]

@[simp] theorem data_insertNodeAtTail (l : FreeList α) (node a : Nat) :
    ((l.insertNodeAtTail node).nodes a).data = (l.nodes a).data := by
  unfold insertNodeAtTail
  cases l.tail <;> dsimp only <;> split <;> simp [-setNext_nodes]

@[simp] theorem allocator_insertNodeAtTail (l : FreeList α) (node : Nat) :
    (l.insertNodeAtTail node).allocator = l.allocator := by
  unfold insertNodeAtTail
  cases l.tail <;> dsimp only <;> split <;> rfl

/-- A host push takes one node from the allocator. -/
theorem allocator_pushBackHost (l : FreeList α) (val : α) :
    (l.pushBackHost val).2.allocator = l.allocator + 1 := by
  simp [pushBackHost, pushBackWith, allocateNodeHost]

/-- The data of the live nodes after a push of `val` into a node `n` that
    was not live. -/
theorem map_data_snoc {l l' : FreeList α} {live : List Nat} {n : Nat} {val : α} (hn : n ∉ live)
    (hdata : ∀ b, (l'.nodes b).data = if b = n then val else (l.nodes b).data) :
    (live ++ [n]).map (fun a => (l'.nodes a).data) =
      (live.map fun a => (l.nodes a).data) ++ [val] := by
  rw [List.map_append, List.map_singleton, hdata n, if_pos rfl]
  congr 1
  refine List.map_congr_left fun b hb => ?_
  rw [hdata b, if_neg fun h : b = n => hn (h ▸ hb)]

/-- The queue: the data of the nodes reached from `head_`. -/
def Represents (l : FreeList α) (q : List α) : Prop :=
  ∃ live, Path l.next l.head live none ∧ q = live.map fun a => (l.nodes a).data

/-- The representation invariant, with the live and recycled nodes. -/
structure Wf (l : FreeList α) (live recycled : List Nat) : Prop where
  live_path : Path l.next l.head live none
  recycled_path : Path l.next l.deallocatedNodes recycled none
  tail_eq : l.tail = live.getLast?
  nodup : (live ++ recycled).Nodup
  lt_allocator : ∀ a ∈ live ++ recycled, a < l.allocator

theorem wf_init [Inhabited α] : Wf (init : FreeList α) [] [] where
  live_path := .nil none
  recycled_path := .nil none
  tail_eq := rfl
  nodup := List.nodup_nil
  lt_allocator := fun _ h => absurd h List.not_mem_nil

namespace Wf

variable {l : FreeList α} {live recycled : List Nat}

theorem head_eq (hs : Wf l live recycled) : l.head = live.head? := hs.live_path.head?_eq

theorem represents (hs : Wf l live recycled) :
    l.Represents (live.map fun a => (l.nodes a).data) :=
  ⟨live, hs.live_path, rfl⟩

/-- The queue is the data of the live nodes. -/
theorem eq_of_represents (hs : Wf l live recycled) {q : List α} (hq : l.Represents q) :
    q = live.map fun a => (l.nodes a).data := by
  obtain ⟨live', hpath, rfl⟩ := hq
  rw [hpath.unique hs.live_path]

/-- The invariant reads the list pointers and the `next` fields of the
    listed nodes only, and allows the allocator to move on. -/
theorem congr (hs : Wf l live recycled) {l' : FreeList α}
    (hnext : ∀ a ∈ live ++ recycled, l'.next a = l.next a) (hhead : l'.head = l.head)
    (htail : l'.tail = l.tail) (hdealloc : l'.deallocatedNodes = l.deallocatedNodes)
    (halloc : l.allocator ≤ l'.allocator) : Wf l' live recycled where
  live_path := by
    rw [hhead]
    exact hs.live_path.frame fun a ha => hnext a (List.mem_append_left _ ha)
  recycled_path := by
    rw [hdealloc]
    exact hs.recycled_path.frame fun a ha => hnext a (List.mem_append_right _ ha)
  tail_eq := by rw [htail]; exact hs.tail_eq
  nodup := hs.nodup
  lt_allocator := fun a ha => Nat.lt_of_lt_of_le (hs.lt_allocator a ha) halloc

/-- Linking a node that neither list holds, with a null `next`, at the tail
    appends it to the live list. -/
theorem insertNode (hs : Wf l live recycled) {n : Nat} (hn : n ∉ live ++ recycled)
    (hlt : n < l.allocator) (hnil : l.next n = none) :
    Wf (l.insertNodeAtTail n) (live ++ [n]) recycled := by
  have hnodup : (live ++ [n] ++ recycled).Nodup := by
    rw [List.append_assoc, List.singleton_append, List.nodup_middle, List.nodup_cons]
    exact ⟨hn, hs.nodup⟩
  have hlt' : ∀ a ∈ live ++ [n] ++ recycled, a < l.allocator := by
    intro a ha
    rw [List.append_assoc, List.singleton_append, List.mem_append, List.mem_cons] at ha
    rcases ha with ha | rfl | ha
    · exact hs.lt_allocator a (List.mem_append_left _ ha)
    · exact hlt
    · exact hs.lt_allocator a (List.mem_append_right _ ha)
  rcases List.eq_nil_or_concat' live with rfl | ⟨ys, t, rfl⟩
  · -- An empty list: `n` becomes head and tail.
    rw [insertNodeAtTail_of_empty hs.tail_eq hs.head_eq]
    exact ⟨.cons (by rw [← hnil]; exact .nil _), hs.recycled_path, rfl, hnodup, hlt'⟩
  · -- `n` is linked after the tail `t`, which is neither in `ys` nor recycled.
    have htail : l.tail = some t := by rw [hs.tail_eq, List.getLast?_concat]
    have hhead : l.head ≠ none := by rw [hs.head_eq]; cases ys <;> simp
    have hnd := hs.nodup
    rw [List.append_assoc, List.singleton_append, List.nodup_middle, List.nodup_cons] at hnd
    have hnt : n ≠ t := by
      rintro rfl
      exact hn (by simp)
    rw [insertNodeAtTail_of_tail htail hhead]
    obtain ⟨hys, -⟩ := Path.snoc_iff.mp hs.live_path
    refine ⟨?_, ?_, by simp, hnodup, hlt'⟩
    · show Path (l.setNext t (some n)).next l.head (ys ++ [t] ++ [n]) none
      refine Path.snoc_iff.mpr ⟨Path.snoc_iff.mpr ⟨hys.frame fun a ha => ?_, ?_⟩, ?_⟩
      · rw [next_setNext, if_neg (fun h : a = t => hnd.1 (List.mem_append_left _ (h ▸ ha)))]
      · rw [next_setNext, if_pos rfl]
      · rw [next_setNext, if_neg hnt, hnil]
    · show Path (l.setNext t (some n)).next l.deallocatedNodes recycled none
      exact hs.recycled_path.frame fun a ha => by
        rw [next_setNext, if_neg (fun h : a = t => hnd.1 (List.mem_append_right _ (h ▸ ha)))]

/-- A pop of a non-empty list returns the first node's data and moves the
    node to the front of the recycled list. -/
theorem popFront [Inhabited α] {a : Nat} {rest : List Nat} (hs : Wf l (a :: rest) recycled) :
    l.popFront.1 = ((l.nodes a).data, true) ∧ Wf l.popFront.2 rest (a :: recycled) ∧
      ∀ b, (l.popFront.2.nodes b).data = (l.nodes b).data := by
  obtain ⟨hres, hh, ht, hd, halloc, hnext, hdata⟩ := popFront_of_head_some hs.head_eq
  obtain ⟨-, hrest⟩ := path_cons_iff.mp hs.live_path
  have hnd := hs.nodup
  rw [List.cons_append, List.nodup_cons] at hnd
  -- Only the `next` of `a` changes, and `a` is on neither remaining list.
  have hframe : ∀ b ∈ rest ++ recycled,
      (if b = a then l.deallocatedNodes else l.next b) = l.next b :=
    fun b hb => if_neg fun h : b = a => hnd.1 (h ▸ hb)
  refine ⟨hres, ⟨?_, ?_, ?_, ?_, ?_⟩, hdata⟩
  · rw [hh, hnext]
    exact hrest.frame fun b hb => hframe b (List.mem_append_left _ hb)
  · rw [hd, hnext]
    refine .cons ?_
    rw [if_pos rfl]
    exact hs.recycled_path.frame fun b hb => hframe b (List.mem_append_right _ hb)
  · -- The tail resets exactly when the last node goes.
    rw [ht]
    cases rest with
    | nil => rw [if_pos (path_nil_iff.mp hrest)]; rfl
    | cons c rest' =>
        rw [if_neg (by rw [(path_cons_iff.mp hrest).1]; exact Option.some_ne_none c), hs.tail_eq,
          List.getLast?_cons_cons]
  · rw [List.nodup_middle, List.nodup_cons]
    exact hnd
  · intro b hb
    rw [halloc]
    exact hs.lt_allocator b (List.perm_middle.mem_iff.mp hb)

/-- A push that gets from `allocateNode` a node `n` that neither list holds,
    with the invariant still in place, writes `val` into `n` and appends
    `n` to the live list. -/
theorem pushBackWith_some {l₁ : FreeList α} (hs : Wf l₁ live recycled)
    {allocateNode : FreeList α → Option Nat × FreeList α} {n : Nat}
    (halloc : allocateNode l = (some n, l₁)) (hn : n ∉ live ++ recycled) (hlt : n < l₁.allocator)
    (val : α) :
    (pushBackWith allocateNode l val).1 = true ∧
      Wf (pushBackWith allocateNode l val).2 (live ++ [n]) recycled ∧
      ∀ b, ((pushBackWith allocateNode l val).2.nodes b).data =
        if b = n then val else (l₁.nodes b).data := by
  unfold pushBackWith
  rw [halloc]
  -- The node is written before it is linked; neither write touches a list.
  have hset : Wf ((l₁.setData n val).setNext n none) live recycled :=
    hs.congr (fun b hb => by rw [next_setNext, if_neg fun h : b = n => hn (h ▸ hb), next_setData])
      rfl rfl rfl (Nat.le_refl _)
  refine ⟨rfl, hset.insertNode hn hlt (by rw [next_setNext, if_pos rfl]), fun b => ?_⟩
  rw [data_insertNodeAtTail, data_setNext, data_setData]

/-- A host push takes the allocator's next node and appends `val`. -/
theorem pushBackHost (hs : Wf l live recycled) (val : α) :
    (l.pushBackHost val).1 = true ∧ Wf (l.pushBackHost val).2 (live ++ [l.allocator]) recycled ∧
      ∀ b, ((l.pushBackHost val).2.nodes b).data =
        if b = l.allocator then val else (l.nodes b).data := by
  have hs₁ : Wf { l with allocator := l.allocator + 1 } live recycled :=
    hs.congr (fun _ _ => rfl) rfl rfl rfl (Nat.le_succ _)
  exact hs₁.pushBackWith_some rfl (fun h => Nat.lt_irrefl _ (hs.lt_allocator _ h))
    (Nat.lt_succ_self _) val

/-- A device push with a recycled node `n` takes it and appends `val`. -/
theorem pushBackDevice_cons {n : Nat} {rs : List Nat} (hs : Wf l live (n :: rs)) (val : α) :
    (l.pushBackDevice val).1 = true ∧ Wf (l.pushBackDevice val).2 (live ++ [n]) rs ∧
      ∀ b, ((l.pushBackDevice val).2.nodes b).data = if b = n then val else (l.nodes b).data := by
  have hd : l.deallocatedNodes = some n := hs.recycled_path.head?_eq
  obtain ⟨-, hrs⟩ := path_cons_iff.mp hs.recycled_path
  have hnd := hs.nodup
  rw [List.nodup_middle, List.nodup_cons] at hnd
  have halloc : allocateNodeDevice l = (some n, { l with deallocatedNodes := l.next n }) := by
    unfold allocateNodeDevice
    rw [hd]
  have hs₁ : Wf { l with deallocatedNodes := l.next n } live rs :=
    ⟨hs.live_path, hrs, hs.tail_eq, hnd.2,
      fun b hb => hs.lt_allocator b (List.perm_middle.mem_iff.mpr (List.mem_cons_of_mem _ hb))⟩
  exact hs₁.pushBackWith_some halloc hnd.1
    (hs.lt_allocator n (List.mem_append_right _ List.mem_cons_self)) val

/-- A device push with no recycled node fails and changes nothing. -/
theorem pushBackDevice_nil (hs : Wf l live []) (val : α) : l.pushBackDevice val = (false, l) := by
  have hd : l.deallocatedNodes = none := hs.recycled_path.head?_eq
  unfold pushBackDevice pushBackWith allocateNodeDevice
  rw [hd]

/-- After a push of `val` into a fresh node `n`, the queue has `val` at the
    back. -/
theorem represents_snoc {l' : FreeList α} {n : Nat} {val : α} (hs' : Wf l' (live ++ [n]) recycled)
    (hn : n ∉ live ++ recycled)
    (hdata : ∀ b, (l'.nodes b).data = if b = n then val else (l.nodes b).data) :
    l'.Represents ((live.map fun a => (l.nodes a).data) ++ [val]) :=
  ⟨live ++ [n], hs'.live_path,
    (map_data_snoc (fun h => hn (List.mem_append_left _ h)) hdata).symm⟩

/-- The operations on the queue `q` the list represents: a pop of an empty
    queue fails and changes nothing, a pop of `x :: rest` returns `x` and
    leaves `rest`, and a push that succeeds appends. -/
theorem queue_ops [Inhabited α] (hs : Wf l live recycled) {q : List α} (hq : l.Represents q) :
    (q = [] → l.popFront.1.2 = false ∧ l.popFront.2 = l) ∧
    (∀ x rest, q = x :: rest → l.popFront.1 = (x, true) ∧ l.popFront.2.Represents rest) ∧
    (∀ val, (l.pushBackHost val).1 = true ∧ (l.pushBackHost val).2.Represents (q ++ [val])) ∧
    (∀ val, ((l.pushBackDevice val).1 = true ↔ l.deallocatedNodes ≠ none) ∧
      ((l.pushBackDevice val).1 = true → (l.pushBackDevice val).2.Represents (q ++ [val])) ∧
      ((l.pushBackDevice val).1 = false → (l.pushBackDevice val).2 = l)) := by
  rw [hs.eq_of_represents hq]
  refine ⟨?_, ?_, ?_, ?_⟩
  · -- An empty queue has a null head.
    intro hnil
    have hlive : live = [] := List.map_eq_nil_iff.mp hnil
    subst hlive
    rw [popFront_of_head_none hs.head_eq]
    exact ⟨rfl, rfl⟩
  · intro x rest hcons
    cases live with
    | nil => exact absurd hcons (List.cons_ne_nil x rest).symm
    | cons a live' =>
        rw [List.map_cons, List.cons.injEq] at hcons
        obtain ⟨hres, hs', hdata⟩ := hs.popFront
        refine ⟨by rw [hres, hcons.1], live', hs'.live_path, ?_⟩
        rw [← hcons.2]
        exact List.map_congr_left fun b _ => (hdata b).symm
  · intro val
    obtain ⟨hres, hs', hdata⟩ := hs.pushBackHost val
    exact ⟨hres, represents_snoc hs' (fun h => Nat.lt_irrefl _ (hs.lt_allocator _ h)) hdata⟩
  · intro val
    cases recycled with
    | nil =>
        -- No recycled node: the push fails.
        have hd : l.deallocatedNodes = none := hs.recycled_path.head?_eq
        rw [hs.pushBackDevice_nil val, hd]
        exact ⟨by simp, fun h => Bool.noConfusion h, fun _ => rfl⟩
    | cons n rs =>
        have hd : l.deallocatedNodes = some n := hs.recycled_path.head?_eq
        have hn : n ∉ live ++ rs := by
          have hnd := hs.nodup
          rw [List.nodup_middle, List.nodup_cons] at hnd
          exact hnd.1
        obtain ⟨hres, hs', hdata⟩ := hs.pushBackDevice_cons val
        rw [hres, hd]
        exact ⟨by simp, fun _ => represents_snoc hs' hn hdata, fun h => Bool.noConfusion h⟩

end Wf

/-- One operation on the list, run alone. -/
inductive Step [Inhabited α] : FreeList α → FreeList α → Prop where
  | pushBackHost (l : FreeList α) (val : α) : Step l (l.pushBackHost val).2
  | pushBackDevice (l : FreeList α) (val : α) : Step l (l.pushBackDevice val).2
  | popFront (l : FreeList α) : Step l l.popFront.2

/-- Every operation keeps the invariant, for some live and recycled lists. -/
theorem Wf.step [Inhabited α] {l l' : FreeList α} {live recycled : List Nat}
    (hs : Wf l live recycled) (h : Step l l') : ∃ live' recycled', Wf l' live' recycled' := by
  cases h with
  | pushBackHost val => exact ⟨_, _, (hs.pushBackHost val).2.1⟩
  | pushBackDevice val =>
      cases recycled with
      | nil => exact ⟨live, [], by rw [hs.pushBackDevice_nil val]; exact hs⟩
      | cons n rs => exact ⟨_, _, (hs.pushBackDevice_cons val).2.1⟩
  | popFront =>
      cases live with
      | nil => exact ⟨[], recycled, by rw [popFront_of_head_none hs.head_eq]; exact hs⟩
      | cons a rest => exact ⟨_, _, hs.popFront.2.1⟩

theorem wf_reachable [Inhabited α] {l : FreeList α} (h : Reachable Step init l) :
    ∃ live recycled, Wf l live recycled := by
  refine @Reachable.invariant _ _ _ (fun l => ∃ live recycled, Wf l live recycled)
    ⟨[], [], wf_init⟩ ?_ _ h
  rintro _ _ - ⟨live, recycled, hs⟩ hstep
  exact hs.step hstep

end FreeList

/-- `FreeList` is a FIFO queue over any sequence of host pushes, device
    pushes and device pops, run one at a time. In every reachable state the
    live and recycled lists end at null and share no node, the head is null
    exactly when the tail is, and the tail is the last live node with a null
    `next`; and on the queue of the data reached from `head_`, a pop returns
    the front and removes it, or fails and changes nothing on an empty queue,
    every successful push appends, and a device push succeeds exactly when
    a recycled node is left. -/
theorem free_list_fifo_queue {α : Type} [Inhabited α] (l : FreeList α)
    (h : Reachable FreeList.Step FreeList.init l) :
    (∃ live recycled, Path l.next l.head live none ∧ Path l.next l.deallocatedNodes recycled none ∧
      (l.head = none ↔ l.tail = none) ∧ l.tail = live.getLast? ∧
      (∀ t, l.tail = some t → l.next t = none) ∧ (live ++ recycled).Nodup) ∧
    (∃ q, l.Represents q) ∧
    ∀ q, l.Represents q →
      (q = [] → l.popFront.1.2 = false ∧ l.popFront.2 = l) ∧
      (∀ x rest, q = x :: rest → l.popFront.1 = (x, true) ∧ l.popFront.2.Represents rest) ∧
      (∀ val, (l.pushBackHost val).1 = true ∧ (l.pushBackHost val).2.Represents (q ++ [val])) ∧
      (∀ val, ((l.pushBackDevice val).1 = true ↔ l.deallocatedNodes ≠ none) ∧
        ((l.pushBackDevice val).1 = true → (l.pushBackDevice val).2.Represents (q ++ [val]))) := by
  obtain ⟨live, recycled, hs⟩ := FreeList.wf_reachable h
  refine ⟨⟨live, recycled, hs.live_path, hs.recycled_path, ?_, hs.tail_eq, ?_, hs.nodup⟩,
    ⟨_, hs.represents⟩, fun q hq => ?_⟩
  · rw [hs.head_eq, hs.tail_eq, List.head?_eq_none_iff, List.getLast?_eq_none_iff]
  · -- The last live node ends the walk from the head.
    intro t ht
    rw [hs.tail_eq] at ht
    obtain ⟨ys, rfl⟩ := List.getLast?_eq_some_iff.mp ht
    exact (Path.snoc_iff.mp hs.live_path).2
  · obtain ⟨hempty, hpop, hhost, hdevice⟩ := hs.queue_ops hq
    exact ⟨hempty, hpop, hhost, fun val => ⟨(hdevice val).1, (hdevice val).2.1⟩⟩

/-- The host pushes `5` and `7`, and a device pop takes `5`: the queue is
    `[7]` and node `0` is recycled. -/
theorem free_list_fifo_queue_after_pop :
    ∃ l : FreeList Nat, Reachable FreeList.Step FreeList.init l ∧ l.Represents [7] ∧
      l.deallocatedNodes = some 0 ∧
      ((∃ live recycled, Path l.next l.head live none ∧
          Path l.next l.deallocatedNodes recycled none ∧
          (l.head = none ↔ l.tail = none) ∧ l.tail = live.getLast? ∧
          (∀ t, l.tail = some t → l.next t = none) ∧ (live ++ recycled).Nodup) ∧
        (∃ q, l.Represents q) ∧
        ∀ q, l.Represents q →
          (q = [] → l.popFront.1.2 = false ∧ l.popFront.2 = l) ∧
          (∀ x rest, q = x :: rest → l.popFront.1 = (x, true) ∧ l.popFront.2.Represents rest) ∧
          (∀ val, (l.pushBackHost val).1 = true ∧
            (l.pushBackHost val).2.Represents (q ++ [val])) ∧
          (∀ val, ((l.pushBackDevice val).1 = true ↔ l.deallocatedNodes ≠ none) ∧
            ((l.pushBackDevice val).1 = true →
              (l.pushBackDevice val).2.Represents (q ++ [val])))) := by
  have hreach : Reachable FreeList.Step FreeList.init
      ((FreeList.init.pushBackHost 5).2.pushBackHost 7).2.popFront.2 :=
    ((Reachable.refl.tail (.pushBackHost _ 5)).tail (.pushBackHost _ 7)).tail (.popFront _)
  exact ⟨_, hreach, ⟨[1], .cons (.nil none), rfl⟩, rfl, free_list_fifo_queue _ hreach⟩

end RocShmem
