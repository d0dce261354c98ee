/-
# The linked queues

`queue.c` (the queue of the semaphores) and the `queue2` of `proc.c` (the queue of yielding
threads) are the same code twice: a list of nodes from `head` with a pointer `tail` to its last
node and a count `size`.  They differ in what a node holds, in the allocator they call and in
what `pop` returns on an empty queue.

`pop` asks `size` whether the queue is empty and `add` asks `head`, so the two have to agree
after every history; and `tail` is left DANGLING by the code between the free of the last node
and the test that follows it.  The code is run here against a FIFO list of pairs of a node and its
value.  What would be undefined gets stuck: following a null pointer, and freeing a node that
is not allocated.  `rep_step` says that no operation gets stuck and each does to the pointers
what the FIFO does to its list.

`malloc` and `kalloc2` are allowed to return ANY eight bytes that no allocated node uses, in
particular a node freed before, and `free` may leave anything in what it frees.
-/
import Xv6.Chain
import Xv6.User.Semaphore

namespace Xv6.Queues

open Xv6.Runs

variable {V P : Type}

/-! ## 1. The code -/

/-- The address of a node: eight bytes, inside the address space and not at `0`. -/
structure Addr where
  val : Nat
  pos : 0 < val
  fits : val + 8 ≤ 2 ^ 32
  deriving DecidableEq

/-- The two nodes share no byte. -/
def Addr.Apart (a b : Addr) : Prop := a.val + 8 ≤ b.val ∨ b.val + 8 ≤ a.val

instance (a b : Addr) : Decidable (a.Apart b) := inferInstanceAs (Decidable (_ ∨ _))

/-- `struct node`, `struct node2` -/
structure Node (V : Type) where
  value : V
  next : Option Addr

/-- `struct queue`, `struct queue2`; `size` is a C `int`. -/
structure Queue where
  size : BitVec 32
  head : Option Addr
  tail : Option Addr

/-- What an operation answers. -/
inductive Out (V : Type)
  | done
  | flag (b : Bool)
  | value (v : V)
  deriving DecidableEq

/-- A queue and the memory around it.  `freed` and `outs` are histories, read by no operation:
the nodes freed and the answers given so far. -/
structure World (V : Type) where
  q : Queue
  mem : Addr → Node V
  /-- the nodes that are allocated -/
  used : List Addr
  freed : List Addr
  outs : List (Out V)

/-- `free(destroy)`, `kfree2(destroy)`: stuck on a node that is not allocated. -/
def free (destroy : Addr) (junk : Node V) (w : World V) : Option (World V) :=
  if destroy ∈ w.used then
    some { w with
      used := w.used.erase destroy
      freed := w.freed ++ [destroy]
      mem := Function.update w.mem destroy junk }
  else none

/-- `init_q`, `init_q2` -/
def init (w : World V) : World V := { w with q := ⟨0, none, none⟩ }

/-- `add_q`, `add_q2`, where the allocator returns `n`. -/
def add (v : V) (n : Addr) (w : World V) : Option (World V) :=
  let mem := Function.update w.mem n ⟨v, none⟩
  match w.q.head with
  | none => some { w with used := n :: w.used, mem, q := ⟨w.q.size + 1, some n, some n⟩ }
  | some _ =>
    -- `q->tail->next = n`
    w.q.tail.map fun t => { w with
      used := n :: w.used
      mem := Function.update mem t { mem t with next := some n }
      q := ⟨w.q.size + 1, w.q.head, some n⟩ }

/-- `empty_q`, `empty_q2` -/
def empty (w : World V) : Bool := w.q.size == 0

/-- `pop_q`, `pop_q2`: `dflt` is returned on an empty queue, and `junk` is what the free leaves
in the node. -/
def pop (dflt : V) (junk : Node V) (w : World V) : Option (V × World V) :=
  if empty w then some (dflt, w)
  else
    w.q.head.bind fun destroy =>
    let val := (w.mem destroy).value
    let head := (w.mem destroy).next
    (free destroy junk w).map fun w =>
    let size := w.q.size - 1
    if size = 0 then (val, { w with q := ⟨size, none, none⟩ })
    else (val, { w with q := ⟨size, head, w.q.tail⟩ })

/-- The four functions of one of the two queues. -/
structure Code (V : Type) where
  init : World V → World V
  add : V → Addr → World V → Option (World V)
  empty : World V → Bool
  pop : Node V → World V → Option (V × World V)

/-- The queue of `queue.c`, of C `int`s. -/
def queue : Code Int := ⟨init, add, empty, pop (-1)⟩

/-- The queue of `proc.c`, of pointers to processes; `none` is the null pointer. -/
def queue2 : Code (Option P) := ⟨init, add, empty, pop none⟩

/-- An operation, with the node the allocator returns and what the free leaves behind. -/
inductive Op (V : Type)
  | init
  | add (v : V) (n : Addr)
  | empty
  | pop (junk : Node V)

/-- The answer is noted. -/
def World.note (o : Out V) (w : World V) : World V := { w with outs := w.outs ++ [o] }

/-- One operation. -/
def step (c : Code V) (w : World V) : Op V → Option (World V)
  | .init => some ((c.init w).note .done)
  | .add v n => (c.add v n w).map (World.note .done)
  | .empty => some (w.note (.flag (c.empty w)))
  | .pop junk => (c.pop junk w).map fun r => r.2.note (.value r.1)

/-- The allocator succeeds, and returns memory that is not in use. -/
def Available (w : World V) : Op V → Prop
  | .add _ n => ∀ b ∈ w.used, n.Apart b
  | _ => True

instance (w : World V) : ∀ o : Op V, Decidable (Available w o)
  | .add _ n => inferInstanceAs (Decidable (∀ b ∈ w.used, n.Apart b))
  | .init | .empty | .pop _ => isTrue trivial

/-! ## 2. The FIFO -/

/-- A FIFO list, each value with the node it was put in; the nodes of the values taken out. -/
structure Fifo (V : Type) where
  items : List (Addr × V)
  freed : List Addr
  outs : List (Out V)

/-- One operation on the list.  A value taken out has its node freed, and nothing else is. -/
def Fifo.step (dflt : V) (f : Fifo V) : Op V → Fifo V
  | .init => { f with items := [], outs := f.outs ++ [.done] }
  | .add v n => { f with items := f.items ++ [(n, v)], outs := f.outs ++ [.done] }
  | .empty => { f with outs := f.outs ++ [.flag f.items.isEmpty] }
  | .pop _ =>
    match f.items with
    | [] => { f with outs := f.outs ++ [.value dflt] }
    | (n, v) :: rest => ⟨rest, f.freed ++ [n], f.outs ++ [.value v]⟩

/-- The nodes of the list. -/
def Fifo.nodes (f : Fifo V) : List Addr := f.items.map Prod.fst

/-- The queue in memory is the list. -/
structure Rep (w : World V) (f : Fifo V) : Prop where
  /-- the nodes met from `head` are those of the list, and the last of them ends it -/
  chain : Chain (fun a => (w.mem a).next) w.q.head f.nodes
  values : ∀ p ∈ f.items, (w.mem p.1).value = p.2
  size : w.q.size.toInt = f.items.length
  head : w.q.head = none ↔ w.q.size = 0
  tail : w.q.tail = f.nodes.getLast?
  /-- its nodes are allocated, and no two allocated nodes share a byte -/
  used : ∀ n ∈ f.nodes, n ∈ w.used
  apart : w.used.Pairwise Addr.Apart
  freed : w.freed = f.freed
  outs : w.outs = f.outs

/-! ## 3. The nodes on the list -/

theorem Addr.Apart.ne {a b : Addr} (h : a.Apart b) : a ≠ b := by
  rintro rfl
  rcases h with h | h <;> omega

/-- Nodes that share no byte lie in different eighths of the address space. -/
theorem length_le_of_apart {l : List Addr} (h : l.Pairwise Addr.Apart) : l.length ≤ 2 ^ 29 := by
  have hnodup : (l.map fun a => a.val / 8).Nodup := by
    refine List.pairwise_map.mpr (h.imp fun {a b} hab => ?_)
    rcases hab with hab | hab <;> omega
  have hsub : (l.map fun a => a.val / 8).toFinset ⊆ Finset.range (2 ^ 29) := by
    intro k hk
    obtain ⟨a, -, rfl⟩ := List.mem_map.mp (List.mem_toFinset.mp hk)
    have := a.fits
    exact Finset.mem_range.mpr (by omega)
  have hcard := Finset.card_le_card hsub
  rw [List.toFinset_card_of_nodup hnodup, Finset.card_range, List.length_map] at hcard
  exact hcard

theorem toInt_eq_iff {b : BitVec 32} {n : Nat} (h : n < 2 ^ 31) :
    b.toInt = n ↔ b.toNat = n := by
  rw [BitVec.toInt_eq_toNat_cond]
  split <;> omega

variable {w : World V} {f : Fifo V} {v dflt : V} {n : Addr} {junk : Node V}

namespace Rep

theorem nodup (h : Rep w f) : f.nodes.Nodup := h.chain.nodup

theorem length_le (h : Rep w f) : f.items.length ≤ 2 ^ 29 := by
  have hsub : f.nodes.Subperm w.used := h.nodup.subperm h.used
  calc f.items.length = f.nodes.length := (List.length_map _).symm
    _ ≤ w.used.length := hsub.length_le
    _ ≤ 2 ^ 29 := length_le_of_apart h.apart

theorem size_toNat (h : Rep w f) : w.q.size.toNat = f.items.length :=
  (toInt_eq_iff (by have := h.length_le; omega)).mp h.size

/-- `pop`'s test and `add`'s test agree with the list. -/
theorem empty_eq (h : Rep w f) : empty w = f.items.isEmpty := by
  have hsize := h.size_toNat
  unfold empty
  cases hi : f.items with
  | nil =>
    rw [hi] at hsize
    have : w.q.size = 0 := by simpa using BitVec.eq_of_toNat_eq (y := 0#32) hsize
    simp [this]
  | cons p rest =>
    rw [hi, List.length_cons] at hsize
    have : w.q.size ≠ 0 := by
      intro h0
      rw [h0] at hsize
      simp at hsize
    simpa using this

/-- What the invariant says of an empty queue, and so of one that `init` has emptied. -/
theorem of_nil {freed : List Addr} {outs : List (Out V)} (hq : w.q = ⟨0, none, none⟩)
    (hapart : w.used.Pairwise Addr.Apart) (hfreed : w.freed = freed) (houts : w.outs = outs) :
    Rep w ⟨[], freed, outs⟩ := by
  refine ⟨?_, nofun, ?_, ?_, ?_, nofun, hapart, hfreed, houts⟩
  · exact congrArg Queue.head hq
  · rw [hq]
    rfl
  · rw [hq]
    exact iff_of_true rfl rfl
  · rw [hq]
    rfl

theorem note (h : Rep w f) (o : Out V) : Rep (w.note o) { f with outs := f.outs ++ [o] } :=
  ⟨h.chain, h.values, h.size, h.head, h.tail, h.used, h.apart, h.freed, by
    change w.outs ++ [o] = f.outs ++ [o]
    rw [h.outs]⟩

/-! ## 4. The operations -/

/-- A fresh node is none of those on the list. -/
theorem not_mem (h : Rep w f) (hn : ∀ b ∈ w.used, n.Apart b) : n ∉ f.nodes :=
  fun hmem => (hn n (h.used n hmem)).ne rfl

theorem add_size (h : Rep w f) : (w.q.size + 1).toInt = f.items.length + 1 := by
  have hlen : f.items.length ≤ 2 ^ 29 := h.length_le
  have hsize := h.size_toNat
  have hnat : (w.q.size + 1).toNat = f.items.length + 1 := by bv_omega
  exact_mod_cast (toInt_eq_iff (by omega)).mpr hnat

theorem add_size_ne_zero (h : Rep w f) : w.q.size + 1 ≠ 0 := by
  intro h0
  have hsize := h.add_size
  rw [h0] at hsize
  have : (0 : BitVec 32).toInt = 0 := rfl
  omega

/-- The invariant after `add`, in either of its branches. -/
theorem of_add (h : Rep w f) (hn : ∀ b ∈ w.used, n.Apart b) {mem : Addr → Node V} {x : Addr}
    (hchain : Chain (fun a => (mem a).next) (some x) (f.nodes ++ [n]))
    (hvalues : ∀ p ∈ f.items, (mem p.1).value = p.2) (hvalue : (mem n).value = v) :
    Rep { w with used := n :: w.used, mem, q := ⟨w.q.size + 1, some x, some n⟩ }
      { f with items := f.items ++ [(n, v)] } := by
  have hnodes : Fifo.nodes { f with items := f.items ++ [(n, v)] } = f.nodes ++ [n] :=
    List.map_append
  constructor
  · rw [hnodes]
    exact hchain
  · intro p hp
    rcases List.mem_append.mp hp with hp | hp
    · exact hvalues p hp
    · rw [List.mem_singleton.mp hp]
      exact hvalue
  · rw [List.length_append]
    exact_mod_cast h.add_size
  · exact iff_of_false nofun h.add_size_ne_zero
  · rw [hnodes, List.getLast?_concat]
  · intro a ha
    rw [hnodes] at ha
    rcases List.mem_append.mp ha with ha | ha
    · exact List.mem_cons_of_mem _ (h.used a ha)
    · exact List.mem_singleton.mp ha ▸ List.mem_cons_self
  · exact List.pairwise_cons.mpr ⟨hn, h.apart⟩
  · exact h.freed
  · exact h.outs

/-- `add` appends at the end, whether or not there is a last node to link from. -/
theorem add (h : Rep w f) (hn : ∀ b ∈ w.used, n.Apart b) (v : V) :
    ∃ t, Queues.add v n w = some t ∧ Rep t { f with items := f.items ++ [(n, v)] } := by
  have hfresh := h.not_mem hn
  have hmem (p) (hp : p ∈ f.items) : p.1 ∈ f.nodes := List.mem_map_of_mem hp
  unfold Queues.add
  cases hhead : w.q.head with
  | none =>
    have hnil : f.nodes = [] := h.chain.eq_none_iff.mp hhead
    refine ⟨_, rfl, h.of_add hn ?_ (fun p hp => ?_) ?_⟩
    · rw [hnil]
      exact Chain.single (by rw [Function.update_self])
    · exact absurd (hmem p hp) (hnil ▸ List.not_mem_nil)
    · rw [Function.update_self]
  | some x =>
    have hne : f.nodes ≠ [] := fun hnil => by
      have hnone := h.chain.eq_none_iff.mpr hnil
      rw [hhead] at hnone
      exact nomatch hnone
    obtain ⟨xs, t, hxs⟩ : ∃ xs t, f.nodes = xs ++ [t] :=
      ⟨_, _, (List.dropLast_append_getLast hne).symm⟩
    have htail : w.q.tail = some t := by rw [h.tail, hxs, List.getLast?_concat]
    have hchain : Chain (fun a => (w.mem a).next) (some x) (xs ++ [t]) := by
      rw [← hxs, ← hhead]
      exact h.chain
    have htn : n ≠ t := fun heq => hfresh (by rw [hxs, heq]; simp)
    have hne_n {a} (ha : a ∈ f.nodes) : a ≠ n := fun heq => hfresh (heq ▸ ha)
    rw [htail]
    refine ⟨_, rfl, h.of_add hn ?_ (fun p hp => ?_) ?_⟩
    · rw [hxs]
      refine hchain.snoc ?_ ?_ fun a ha => ?_
      · rw [Function.update_of_ne htn, Function.update_self]
      · rw [Function.update_self]
      · -- the nodes before the last one keep their pointers
        have hat : a ≠ t := fun heq => List.disjoint_of_nodup_append hchain.nodup ha (by simp [heq])
        have hmem' : a ∈ f.nodes := by
          rw [hxs]
          exact List.mem_append_left _ ha
        rw [Function.update_of_ne hat, Function.update_of_ne (hne_n hmem')]
    · rcases eq_or_ne p.1 t with heq | hat
      · rw [heq, Function.update_self]
        dsimp only
        rw [Function.update_of_ne htn.symm, ← heq, h.values p hp]
      · rw [Function.update_of_ne hat, Function.update_of_ne (hne_n (hmem p hp)), h.values p hp]
    · rw [Function.update_of_ne htn, Function.update_self]

/-- The count after a `pop`. -/
theorem pop_size {rest : List (Addr × V)} (h : Rep w f) (hitems : f.items = (n, v) :: rest) :
    (w.q.size - 1).toNat = rest.length := by
  have hsize := h.size_toNat
  rw [hitems, List.length_cons] at hsize
  bv_omega

/-- The nodes behind the first one, when that one is freed. -/
theorem of_pop {rest : List (Addr × V)} (h : Rep w f) (hitems : f.items = (n, v) :: rest)
    {q : Queue} (hsize : q.size = w.q.size - 1) (hhead : q.head = (w.mem n).next)
    (htail : q.tail = (rest.map Prod.fst).getLast?) :
    Rep { w with q, used := w.used.erase n, freed := w.freed ++ [n],
                 mem := Function.update w.mem n junk } ⟨rest, f.freed ++ [n], f.outs⟩ := by
  have hnodes : f.nodes = n :: rest.map Prod.fst := by rw [Fifo.nodes, hitems, List.map_cons]
  have hchain : Chain (fun a => (w.mem a).next) (w.mem n).next (rest.map Prod.fst) :=
    (hnodes ▸ h.chain).2
  have hlen : rest.length < 2 ^ 31 := by
    have := h.length_le
    rw [hitems, List.length_cons] at this
    omega
  have hpop := h.pop_size hitems
  -- the node that is freed is none of the others
  have hne : ∀ a ∈ rest.map Prod.fst, a ≠ n := by
    rintro a ha rfl
    exact (List.nodup_cons.mp (hnodes ▸ h.nodup)).1 ha
  constructor
  · rw [hhead]
    exact hchain.congr fun a ha => congrArg Node.next (Function.update_of_ne (hne a ha) ..)
  · intro p hp
    have hkeep := Function.update_of_ne (hne p.1 (List.mem_map_of_mem hp)) junk w.mem
    rw [← h.values p (hitems ▸ List.mem_cons_of_mem _ hp)]
    exact congrArg Node.value hkeep
  · rw [hsize]
    exact (toInt_eq_iff hlen).mpr hpop
  · have hzero : q.size = 0 ↔ rest = [] := by
      rw [← List.length_eq_zero_iff, ← hpop, hsize]
      bv_omega
    rw [hhead, hzero, hchain.eq_none_iff, List.map_eq_nil_iff]
  · exact htail
  · intro a ha
    have hmem : a ∈ w.used := h.used a (hnodes ▸ List.mem_cons_of_mem _ ha)
    exact (List.mem_erase_of_ne (hne a ha)).mpr hmem
  · exact h.apart.sublist List.erase_sublist
  · change w.freed ++ [n] = f.freed ++ [n]
    rw [h.freed]
  · exact h.outs

/-- `pop` unlinks the node at `head` and frees it. -/
theorem pop {rest : List (Addr × V)} (h : Rep w f) (hitems : f.items = (n, v) :: rest)
    (dflt : V) (junk : Node V) :
    ∃ t, Queues.pop dflt junk w = some (v, t) ∧ Rep t ⟨rest, f.freed ++ [n], f.outs⟩ := by
  have hnodes : f.nodes = n :: rest.map Prod.fst := by rw [Fifo.nodes, hitems, List.map_cons]
  have hhead : w.q.head = some n := (hnodes ▸ h.chain).1
  have hused : n ∈ w.used := h.used n (hnodes ▸ List.mem_cons_self)
  have hvalue : (w.mem n).value = v := h.values (n, v) (hitems ▸ List.mem_cons_self)
  have hpop := h.pop_size hitems
  have hempty : Queues.empty w = false := by rw [h.empty_eq, hitems]; rfl
  unfold Queues.pop
  rw [hempty, hhead]
  simp only [Bool.false_eq_true, if_false, Option.bind_some, free, if_pos hused, Option.map_some,
    hvalue]
  by_cases hlast : w.q.size - 1 = 0
  · -- it was the last one: `tail` still points to it, and is cleared now
    have hrest : rest = [] := by
      rw [← List.length_eq_zero_iff, ← hpop, hlast]
      rfl
    rw [if_pos hlast]
    refine ⟨_, rfl, h.of_pop hitems rfl ?_ ?_⟩
    · subst hrest
      exact ((hnodes ▸ h.chain).2 : Chain _ _ []).symm
    · rw [hrest]
      rfl
  · rw [if_neg hlast]
    refine ⟨_, rfl, h.of_pop hitems rfl rfl ?_⟩
    rw [h.tail, hnodes]
    cases rest with
    | nil => exact absurd (BitVec.eq_of_toNat_eq hpop) hlast
    | cons p rest => rw [List.map_cons, List.getLast?_cons_cons]

end Rep

/-! ## 5. Runs -/

/-- The code with `dflt` for an empty queue: `queue` and `queue2` are of this form. -/
def linked (dflt : V) : Code V := ⟨init, add, empty, pop dflt⟩

/-- **One operation.**  It is defined, and does to the queue what it does to the list. -/
theorem rep_step (h : Rep w f) {o : Op V} (hav : Available w o) (dflt : V) :
    ∃ t, step (linked dflt) w o = some t ∧ Rep t (f.step dflt o) := by
  cases o with
  | init =>
    have hnil : Rep (init w) ⟨[], f.freed, f.outs⟩ := Rep.of_nil rfl h.apart h.freed h.outs
    exact ⟨_, rfl, hnil.note .done⟩
  | add v n =>
    obtain ⟨t, ht, hrep⟩ := h.add hav v
    refine ⟨_, ?_, hrep.note .done⟩
    change (add v n w).map _ = _
    rw [ht]
    rfl
  | empty =>
    refine ⟨_, rfl, ?_⟩
    rw [show (linked dflt).empty w = f.items.isEmpty from h.empty_eq]
    exact h.note _
  | pop junk =>
    cases hitems : f.items with
    | nil =>
      have hempty : empty w = true := by rw [h.empty_eq, hitems]; rfl
      have hpop : pop dflt junk w = some (dflt, w) := by rw [pop, if_pos hempty]
      refine ⟨w.note (.value dflt), ?_, ?_⟩
      · change (pop dflt junk w).map _ = _
        rw [hpop]
        rfl
      · rw [Fifo.step, hitems]
        change Rep _ ⟨[], f.freed, f.outs ++ [.value dflt]⟩
        rw [← hitems]
        exact h.note _
    | cons p rest =>
      obtain ⟨t, ht, hrep⟩ := h.pop hitems dflt junk
      refine ⟨t.note (.value p.2), ?_, ?_⟩
      · change (pop dflt junk w).map _ = _
        rw [ht]
        rfl
      · rw [Fifo.step, hitems]
        exact hrep.note _

/-- A sequence of operations. -/
theorem rep_run (dflt : V) : ∀ (ops : List (Op V)) (w : World V) (f : Fifo V), Rep w f →
    Along Available (step (linked dflt)) w ops →
    ∃ t, run (step (linked dflt)) w ops = some t ∧ Rep t (ops.foldl (Fifo.step dflt) f)
  | [], w, f, h, _ => ⟨w, rfl, h⟩
  | o :: ops, w, f, h, hav => by
    obtain ⟨t, ht, hrep⟩ := rep_step h hav.1 dflt
    obtain ⟨u, hu, hrep'⟩ := rep_run dflt ops t _ hrep (hav.2 t ht)
    exact ⟨u, run_cons_iff.mpr ⟨t, ht, hu⟩, hrep'⟩

/-- **The linked queues are FIFO queues.**  From an `init` on, whatever the memory was, any sequence
of operations with an allocator that returns memory not in use is defined, gives the answers of
the FIFO list, frees the nodes that the list frees, and leaves the list in memory. -/
theorem linked_queues_are_fifo :
    (∀ (w : World Int) (ops : List (Op Int)), w.used.Pairwise Addr.Apart →
      Along Available (step queue) (init w) ops →
      ∃ t, run (step queue) (init w) ops = some t ∧
        Rep t (ops.foldl (Fifo.step (-1)) ⟨[], w.freed, w.outs⟩)) ∧
    ∀ (P : Type) (w : World (Option P)) (ops : List (Op (Option P))),
      w.used.Pairwise Addr.Apart → Along Available (step queue2) (init w) ops →
      ∃ t, run (step queue2) (init w) ops = some t ∧
        Rep t (ops.foldl (Fifo.step none) ⟨[], w.freed, w.outs⟩) :=
  ⟨fun _ ops hapart => rep_run (-1) ops _ _ (Rep.of_nil rfl hapart rfl rfl),
    fun _ _ ops hapart => rep_run none ops _ _ (Rep.of_nil rfl hapart rfl rfl)⟩

instance neZero_four : NeZero 4 := ⟨by decide⟩

/-- Eight bytes at `8 (k + 1)`. -/
def addr (k : Fin 4) : Addr := ⟨8 * (k + 1), by omega, by omega⟩

/-- A value is added, taken out, and another one added in the same node. -/
theorem a_node_is_used_again :
    (∃ t, run (step queue) (init ⟨⟨7, none, none⟩, fun _ => ⟨5, none⟩, [], [], []⟩)
        [.add 3 (addr 0), .pop ⟨0, none⟩, .pop ⟨0, none⟩, .add 4 (addr 0), .empty] = some t ∧
      Rep t ⟨[(addr 0, 4)], [addr 0], [.done, .value 3, .value (-1), .done, .flag false]⟩) ∧
    ∃ t, run (step queue2) (init ⟨⟨7, none, none⟩, fun _ => ⟨some 5, none⟩, [], [], []⟩)
        [.add (some 3) (addr 0), .pop ⟨none, none⟩, .pop ⟨none, none⟩] = some t ∧
      Rep t ⟨[], [addr 0], [.done, .value (some 3), .value none]⟩ :=
  ⟨linked_queues_are_fifo.1 ⟨⟨7, none, none⟩, fun _ => ⟨5, none⟩, [], [], []⟩
      [.add 3 (addr 0), .pop ⟨0, none⟩, .pop ⟨0, none⟩, .add 4 (addr 0), .empty]
      List.Pairwise.nil (by decide),
    linked_queues_are_fifo.2 Nat ⟨⟨7, none, none⟩, fun _ => ⟨some 5, none⟩, [], [], []⟩
      [.add (some 3) (addr 0), .pop ⟨none, none⟩, .pop ⟨none, none⟩]
      List.Pairwise.nil (by decide)⟩

/-! ## 6. The queue of the semaphore

`User.Queue`, which the semaphores and the yielding threads use, is the list without its nodes. -/

/-- The values of the list. -/
def Fifo.queue (f : Fifo Int) : User.Queue := ⟨f.items.map Prod.snd⟩

theorem queue_step (f : Fifo Int) (o : Op Int) :
    (f.step (-1) o).queue = match o with
      | .init => User.initQ
      | .add v _ => User.addQ f.queue v
      | .empty => f.queue
      | .pop _ => (User.popQ f.queue).2 := by
  cases o with
  | init => rfl
  | add v n => exact congrArg User.Queue.mk List.map_append
  | empty => rfl
  | pop junk =>
    obtain ⟨_ | ⟨p, rest⟩, freed, outs⟩ := f
    · rfl
    · rfl

/-- The answers are those of `User.emptyQ` and `User.popQ`. -/
theorem queue_answer (f : Fifo Int) (o : Op Int) :
    (f.step (-1) o).outs = f.outs ++ [match o with
      | .init => .done
      | .add _ _ => .done
      | .empty => .flag (User.emptyQ f.queue)
      | .pop _ => .value (User.popQ f.queue).1] := by
  cases o with
  | init => rfl
  | add v n => rfl
  | empty =>
    change f.outs ++ [.flag f.items.isEmpty] = f.outs ++ [.flag (f.items.map Prod.snd).isEmpty]
    rw [List.isEmpty_map]
  | pop junk =>
    obtain ⟨_ | ⟨p, rest⟩, freed, outs⟩ := f
    · rfl
    · rfl

end Xv6.Queues
