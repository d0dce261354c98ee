/-
# Mapping and unmapping pages: `mappages`, `allocuvm`, `deallocuvm` (vm.c)

A function that maps pages GROWS a directory (`Grows`): frames of the free list become tables and
pages of the directory, or are held, and whatever had an owner before keeps it.  One that unmaps
pages SHRINKS it (`Shrinks`).

`allocuvm` takes a page from the free list and calls `mappages` with it, which may need a second
one, for a page table.  If that one is not to be had, `mappages` returns -1, and `allocuvm` does not
look at what it returns: the page is neither mapped nor free any more.  That can happen once in a
call, because the next `kalloc` fails as well: at the very end, and then `allocuvm` reports success,
or before, and then it gives back all the pages but this one.
-/
import Xv6.Vm.Copyout

namespace Xv6.Vm

open Xv6.Bytes Xv6.Threads Xv6.Threads.Code

/-! ## 1. Growing -/

/-- Frame `f`, with this owner, belongs to directory `d`; of its pages, to those of `P`. -/
def Part (d : Nat) (P : Nat → Prop) (f : Nat) : Owner → Prop
  | .dir => f = d
  | .table d' _ => d' = d
  | .page d' u => d' = d ∧ P u
  | _ => False

/-- Directory `d` has got tables and, among the pages `P`, pages from the free list, where it comes
from itself if it is new; other frames from it are held. -/
structure Grows (l : Layout) (d : Nat) (P : Nat → Prop) (m : Mem) (own : Nat → Owner) (m' : Mem)
    (own' : Nat → Owner) : Prop where
  wf : Wf l m' own'
  keep : ∀ f, own f ≠ .free → own' f = own f
  data : ∀ f, (own f).IsData → m'.page f = m.page f
  pte : ∀ d' u, own d' = .dir → ¬(d' = d ∧ P u) → m'.pteOf d' u = m.pteOf d' u
  table : ∀ d' u, own d' = .dir → m.HasTable d' u → m'.HasTable d' u
  taken : ∀ f, own f = .free → own' f = .free ∨ own' f = .held ∨ Part d P f (own' f)

/-- A frame has been taken and is neither mapped nor free. -/
def Lost (own own' : Nat → Owner) : Prop := ∃ f, own f = .free ∧ own' f = .held

section

variable {l : Layout} {m m' m'' : Mem} {own own' own'' : Nat → Owner} {d f v w : Nat}
  {P Q R : Nat → Prop} {o : Owner}

theorem Owner.IsData.ne_free (h : o.IsData) : o ≠ .free := by
  rintro rfl
  exact h

theorem Part.mono (h : Part d P f o) (hPQ : ∀ u, P u → Q u) : Part d Q f o :=
  match o, h with
  | .dir, h => h
  | .table _ _, h => h
  | .page _ u, h => ⟨h.1, hPQ u h.2⟩

theorem Part.not_plain (h : Part d P f o) : ¬o.Plain := by
  cases o <;> first | exact id | exact fun _ => h

theorem Part.ne_free (h : Part d P f o) : o ≠ .free := fun e => h.not_plain (e ▸ trivial)

theorem Part.ne_held (h : Part d P f o) : o ≠ .held := fun e => h.not_plain (e ▸ trivial)

theorem Grows.refl (h : Wf l m own) (d : Nat) (P : Nat → Prop) : Grows l d P m own m own :=
  ⟨h, fun _ _ => rfl, fun _ _ => rfl, fun _ _ _ _ => rfl, fun _ _ _ => id, fun _ e => .inl e⟩

theorem Grows.dir (h : Grows l d P m own m' own') (hd : own f = .dir) : own' f = .dir :=
  (h.keep f (by rw [hd]; exact nofun)).trans hd

theorem Grows.trans (h : Grows l d P m own m' own') (h' : Grows l d Q m' own' m'' own'')
    (hP : ∀ u, P u → R u) (hQ : ∀ u, Q u → R u) : Grows l d R m own m'' own'' where
  wf := h'.wf
  keep f hf := (h'.keep f (h.keep f hf ▸ hf)).trans (h.keep f hf)
  data f hf := by
    have hsame := h.keep f hf.ne_free
    exact (h'.data f (hsame ▸ hf)).trans (h.data f hf)
  pte d' u hd' hu :=
    (h'.pte d' u (h.dir hd') fun e => hu ⟨e.1, hQ u e.2⟩).trans
      (h.pte d' u hd' fun e => hu ⟨e.1, hP u e.2⟩)
  table d' u hd' ht := h'.table d' u (h.dir hd') (h.table d' u hd' ht)
  taken f hf := by
    rcases h.taken f hf with e | e | e
    · exact (h'.taken f e).imp_right (.imp_right (·.mono hQ))
    · exact .inr (.inl ((h'.keep f (by rw [e]; exact nofun)).trans e))
    · rw [h'.keep f e.ne_free]
      exact .inr (.inr (e.mono hP))

theorem Grows.mono (h : Grows l d P m own m' own') (hPQ : ∀ u, P u → Q u) :
    Grows l d Q m own m' own' := h.trans (.refl h.wf d Q) hPQ fun _ => id

/-- What was not free before is not free now. -/
theorem Grows.free_of_free (h : Grows l d P m own m' own') (hf : own' f = .free) :
    own f = .free := by
  by_contra hne
  exact hne ((h.keep f hne).symm.trans hf)

/-- A frame is lost on the way if it is lost in one part of it. -/
theorem Grows.lost_iff (h : Grows l d P m own m' own') (h' : Grows l d Q m' own' m'' own'') :
    Lost own own'' ↔ Lost own own' ∨ Lost own' own'' := by
  constructor
  · rintro ⟨f, hf, e⟩
    by_cases hfree : own' f = .free
    · exact .inr ⟨f, hfree, e⟩
    · exact .inl ⟨f, hf, (h'.keep f hfree).symm.trans e⟩
  · rintro (⟨f, hf, e⟩ | ⟨f, hf, e⟩)
    · exact ⟨f, hf, (h'.keep f (by rw [e]; exact nofun)).trans e⟩
    · exact ⟨f, h.free_of_free hf, e⟩

theorem not_lost_refl (own : Nat → Owner) : ¬Lost own own := by
  rintro ⟨f, hf, e⟩
  rw [hf] at e
  cases e

/-! ## 2. A frame on its way into a directory -/

/-- Frame `f`, which is held, becomes `o` of directory `d`. -/
structure Settles (l : Layout) (d : Nat) (P : Nat → Prop) (f : Nat) (o : Owner) (m : Mem)
    (own : Nat → Owner) (m' : Mem) (own' : Nat → Owner) : Prop where
  wf : Wf l m' own'
  owner : own' = Function.update own f o
  part : Part d P f o
  data : ∀ g, (own g).IsData → m'.page g = m.page g
  pte : ∀ d' u, own d' = .dir → ¬(d' = d ∧ P u) → m'.pteOf d' u = m.pteOf d' u
  table : ∀ d' u, own d' = .dir → m.HasTable d' u → m'.HasTable d' u

theorem Grows.settle (h : Grows l d P m own m' own') (hf : own f = .free)
    (hs : Settles l d Q f o m' own' m'' own'') (hP : ∀ u, P u → R u) (hQ : ∀ u, Q u → R u) :
    Grows l d R m own m'' own'' where
  wf := hs.wf
  keep g hg := by
    rw [hs.owner, Function.update_of_ne, h.keep g hg]
    rintro rfl
    exact hg hf
  data g hg := by
    have hsame := h.keep g hg.ne_free
    exact (hs.data g (hsame ▸ hg)).trans (h.data g hg)
  pte d' u hd' hu :=
    (hs.pte d' u (h.dir hd') fun e => hu ⟨e.1, hQ u e.2⟩).trans
      (h.pte d' u hd' fun e => hu ⟨e.1, hP u e.2⟩)
  table d' u hd' ht := hs.table d' u (h.dir hd') (h.table d' u hd' ht)
  taken g hg := by
    rw [hs.owner]
    rcases eq_or_ne g f with rfl | hgf
    · rw [Function.update_self]
      exact .inr (.inr (hs.part.mono hQ))
    · rw [Function.update_of_ne hgf]
      exact (h.taken g hg).imp_right (.imp_right (·.mono hP))

/-- If it was the only one on its way, none is lost. -/
theorem Settles.not_lost (hs : Settles l d Q f o m' own' m'' own'')
    (hothers : ∀ g, g ≠ f → own g = .free → own' g ≠ .held) : ¬Lost own own'' := by
  rintro ⟨g, hg, e⟩
  rw [hs.owner] at e
  rcases eq_or_ne g f with rfl | hgf
  · rw [Function.update_self] at e
    exact hs.part.ne_held e
  · rw [Function.update_of_ne hgf] at e
    exact hothers g hgf hg e

/-- **A table of zeros is hung into the directory.** -/
theorem settles_link {i : Nat} (h : Wf l m own) (hf : own f = .held) (hz : m.page f = fun _ => 0)
    (hd : own d = .dir) (hi : i < 1024) (hno : ¬Present (m.pde d i)) :
    Settles l d (fun _ => False) f (.table d i) m own (m.setWord d i (4096 * f + 7))
      (Function.update own f (.table d i)) where
  wf := h.link hf hz hd hi hno
  owner := rfl
  part := rfl
  data g hg := by
    refine Mem.page_setPage_of_ne _ ?_
    rintro rfl
    rw [hd] at hg
    exact hg
  pte d' u hd' _ := pteOf_link h hf hz hd hi hno d' u hd'
  table d' u hd' hu := by
    unfold Mem.HasTable
    rw [pde_link h hf hi]
    split
    · unfold Present
      omega
    · exact hu

/-- **The frame is mapped for the user.** -/
theorem settles_page {perm : Nat} (h : Wf l m own) (hf : own f = .held) (hd : own d = .dir)
    (ht : m.HasTable d v) (hv : v < 2 ^ 19) (hno : ¬Present (m.pteOf d v)) (hperm : perm < 4096) :
    Settles l d (· = v) f (.page d v) m own (m.setPte d v (entry f perm))
      (Function.update own f (.page d v)) := by
  have hrange := h.listed.range f (by rw [hf]; exact nofun)
  have hlt : entry f perm < 2 ^ 32 := entry_lt (by omega) hperm
  exact
    { wf := h.mapUser hd ht hlt hv hno hf (present_entry f perm) (frame_entry perm hperm)
      owner := rfl
      part := ⟨rfl, rfl⟩
      data := fun g hg => page_setPte h hd ht hg.not_isTable
      pte := fun d' u hd' hu => (pteOf_setPte h hd ht hlt hd').trans (if_neg hu)
      table := fun d' u hd' hu => (hasTable_setPte h hd ht hd').mpr hu }

/-- **A page of zeros is made a directory.** -/
theorem settles_newDir (h : Wf l m own) (hf : own f = .held) (hz : m.page f = fun _ => 0) :
    Settles l f (fun _ => False) f .dir m own m (Function.update own f .dir) where
  wf := h.newDir hf hz
  owner := rfl
  part := rfl
  data _ _ := rfl
  pte _ _ _ _ := rfl
  table _ _ _ := id

/-- The head of the free list is free. -/
theorem Wf.own_head (h : Wf l m own) {rest : List Nat} (hf : m.free = f :: rest) :
    own f = .free := (h.listed.free f).mp (by rw [hf]; exact List.mem_cons_self)

/-- **A frame is taken from the free list and filled.** -/
theorem grows_take (h : Wf l m own) {rest : List Nat} (hfree : m.free = f :: rest) (d : Nat)
    (x : Page) : Grows l d (fun _ => False) m own (Mem.setPage { m with free := rest } f x)
      (Function.update own f .held) := by
  have hown := h.own_head hfree
  have hplain : ¬(Function.update own f .held f).IsTable := by
    rw [Function.update_self]
    exact id
  have hne : ∀ g, own g ≠ .free → g ≠ f := by
    rintro g hg rfl
    exact hg hown
  have hned : ∀ g, own g = .dir → g ≠ f := fun g hg => hne g (by rw [hg]; exact nofun)
  refine ⟨(h.take hfree).fill hplain x, fun g hg => Function.update_of_ne (hne g hg) ..,
    fun g hg => Mem.page_setPage_of_ne _ (hne g hg.ne_free), fun d' u hd' _ => ?_,
    fun d' u hd' hu => ?_, fun g hg => ?_⟩
  · exact (h.take hfree).tables.pteOf_setPage hplain x
      (by rw [Function.update_of_ne (hned d' hd'), hd'])
  · unfold Mem.HasTable
    rw [pde_setPage_of_ne x (hned d' hd')]
    exact hu
  · rcases eq_or_ne g f with rfl | hgf
    · rw [Function.update_self]
      exact .inr (.inl rfl)
    · rw [Function.update_of_ne hgf]
      exact .inl hg

/-! ## 3. `kalloc`, `walkpgdir` and `mappages` -/

theorem kalloc_nil (hf : m.free = []) : kalloc l m = .ok none m := by
  unfold kalloc
  rw [run_bind (show gets Mem.free l m = .ok [] m from congrArg (Out.ok · m) hf)]
  rfl

theorem kalloc_cons {rest : List Nat} (hf : m.free = f :: rest) :
    kalloc l m = .ok (some f) { m with free := rest } := by
  unfold kalloc
  rw [run_bind (show gets Mem.free l m = .ok (f :: rest) m from congrArg (Out.ok · m) hf)]
  rfl

/-- What `walkpgdir` has done when it returns an entry. -/
structure Walked (l : Layout) (d v : Nat) (m : Mem) (own : Nat → Owner) (m' : Mem)
    (own' : Nat → Owner) : Prop where
  grows : Grows l d (fun _ => False) m own m' own'
  table : m'.HasTable d v
  lost : ¬Lost own own'
  denied : m'.denied = m.denied
  few : m.free.length ≤ m'.free.length + 1
  none : m.HasTable d v → m'.free = m.free

/-- **`walkpgdir` with `alloc`** finds the table or gets one, unless there is no page left. -/
theorem walkpgdir_alloc (h : Wf l m own) (hd : own d = .dir) (hv : v < 2 ^ 20) :
    (¬m.HasTable d v ∧ m.free = [] ∧
        walkpgdir d v true l m = .ok none { m with denied := m.denied + 1 }) ∨
      ∃ m' own', walkpgdir d v true l m =
          .ok (some (frame (m'.pde d (v / 1024)), v % 1024)) m' ∧ Walked l d v m own m' own' := by
  unfold walkpgdir
  rw [run_bind (show gets (·.pde d (v / 1024)) l m = .ok (m.pde d (v / 1024)) m from rfl)]
  by_cases ht : m.HasTable d v
  · rw [if_pos (show Present _ from ht)]
    exact .inr ⟨m, own, rfl, .refl h d _, ht, not_lost_refl own, rfl, by omega, fun _ => rfl⟩
  · rw [if_neg (show ¬Present _ from ht), if_neg nofun]
    cases hfree : m.free with
    | nil =>
      rw [run_bind (kalloc_nil hfree)]
      exact .inl ⟨ht, rfl, by rw [← hfree]; rfl⟩
    | cons t rest =>
      rw [run_bind (kalloc_cons hfree)]
      have hown := h.own_head hfree
      have htake := grows_take h hfree d fun _ => 0
      have hheld : Function.update own t .held t = .held := Function.update_self ..
      have hno : ¬Present ((Mem.setPage { m with free := rest } t fun _ => 0).pde d (v / 1024)) := by
        rw [pde_setPage_of_ne _ (ne_of_dir hd hown nofun).symm]
        exact ht
      have hlink := settles_link htake.wf hheld (Mem.page_setPage_self _) (htake.dir hd)
        (show v / 1024 < 1024 by omega) hno
      have htab : (Mem.setWord (Mem.setPage { m with free := rest } t fun _ => 0) d (v / 1024)
          (4096 * t + 7)).pde d (v / 1024) = 4096 * t + 7 := by
        rw [pde_link htake.wf hheld (by omega), if_pos ⟨rfl, rfl⟩]
      refine .inr ⟨_, _, ?_, htake.settle hown hlink (fun _ => id) fun _ => id, ?_,
        hlink.not_lost fun g hgt hg => ?_, rfl, ?_, fun e => absurd e ht⟩
      · have hframe : frame (4096 * t + 7) = t := by
          unfold frame
          omega
        show Out.ok (some (t, v % 1024)) _ = _
        rw [htab, hframe]
      · unfold Mem.HasTable Present
        rw [htab]
        omega
      · rw [Function.update_of_ne hgt, hg]
        exact nofun
      · rw [hfree]
        exact Nat.le_refl _

/-- Page `v` of directory `d` is a frame that was free, with these flags and these bytes. -/
structure Fresh (d v perm : Nat) (x : Page) (own : Nat → Owner) (m' : Mem) (own' : Nat → Owner) :
    Prop where
  entry : m'.pteOf d v = Vm.entry (frame (m'.pteOf d v)) perm
  bytes : m'.page (frame (m'.pteOf d v)) = x
  before : own (frame (m'.pteOf d v)) = .free
  after : own' (frame (m'.pteOf d v)) = .page d v

/-- Later growth elsewhere leaves it alone. -/
theorem Fresh.mono {perm : Nat} {x : Page} (h : Fresh d v perm x own m' own')
    (hg : Grows l d P m' own' m'' own'') (hd : own' d = .dir) (hv : ¬P v) :
    Fresh d v perm x own m'' own'' := by
  have hpte := hg.pte d v hd fun e => hv e.2
  refine ⟨by rw [hpte]; exact h.entry, ?_, by rw [hpte]; exact h.before, ?_⟩
  · rw [hpte, hg.data _ (by rw [h.after]; trivial)]
    exact h.bytes
  · rw [hpte, hg.keep _ (by rw [h.after]; exact nofun)]
    exact h.after

theorem Fresh.present {perm : Nat} {x : Page} (h : Fresh d v perm x own m' own') :
    Present (m'.pteOf d v) := by
  rw [h.entry]
  exact present_entry ..

/-- A page that is fresh is nobody else's. -/
theorem Fresh.unique {perm : Nat} {x : Page} (h : Fresh d v perm x own m' own') (hw : Wf l m' own')
    {d' u : Nat} (hd' : own' d' = .dir) (hu : u < 2 ^ 19) (hp : Present (m'.pteOf d' u))
    (he : frame (m'.pteOf d' u) = frame (m'.pteOf d v)) : d' = d ∧ u = v := by
  have hown := (hw.tables.page d' u _).mpr ⟨hd', hu, hp, he⟩
  rw [h.after] at hown
  cases hown
  exact ⟨rfl, rfl⟩

/-- The end of one round of `mappages`: the entry is written. -/
theorem mappages_entry {n perm : Nat} (hno : ¬Present (m'.pteOf d v)) (ht : m'.HasTable d v)
    (hwalk : walkpgdir d v true l m =
      .ok (some (frame (m'.pde d (v / 1024)), v % 1024)) m') :
    mappages (n + 1) d v f perm l m =
      mappages n d (v + 1) (f + 1) perm l (m'.setPte d v (entry f perm)) := by
  rw [mappages, run_bind hwalk]
  simp only
  rw [run_bind (gets_pte l ht), run_bind (panicIf_of_not hno _ l m')]
  rfl

/-- **A page from the free list is filled and mapped**, or there is no page for its table. -/
theorem mappages_fresh (h : Wf l m own) (hd : own d = .dir) (hv : v < 2 ^ 19)
    (hno : ¬Present (m.pteOf d v)) {rest : List Nat} (hfree : m.free = f :: rest) {perm : Nat}
    (hperm : perm < 4096) (x : Page) :
    (∃ m' own', mappages 1 d v f perm l (Mem.setPage { m with free := rest } f x) = .ok true m' ∧
        Grows l d (· = v) m own m' own' ∧ Fresh d v perm x own m' own' ∧ ¬Lost own own' ∧
        m'.denied = m.denied ∧ m.free.length ≤ m'.free.length + 2) ∨
      ∃ m' own', mappages 1 d v f perm l (Mem.setPage { m with free := rest } f x) = .ok false m' ∧
        Grows l d (fun _ => False) m own m' own' ∧ Lost own own' ∧ m'.free = [] ∧
        m'.denied = m.denied + 1 ∧ m.free.length = 1 := by
  have hown := h.own_head hfree
  have htake := grows_take h hfree d x
  have hheld : Function.update own f .held f = .held := Function.update_self ..
  rcases walkpgdir_alloc htake.wf (htake.dir hd) (show v < 2 ^ 20 by omega) with
    ⟨-, hempty, hwalk⟩ | ⟨m₁, own₁, hwalk, hwalked⟩
  · -- no page for the table: the page is held and nobody knows it any more
    refine .inr ⟨{ Mem.setPage { m with free := rest } f x with denied := m.denied + 1 },
      Function.update own f .held, ?_, ⟨⟨htake.wf.listed, htake.wf.tables.congr (fun _ _ _ => rfl)
        fun _ _ _ => rfl⟩, htake.keep, htake.data, htake.pte, htake.table, htake.taken⟩,
      ⟨f, hown, hheld⟩, hempty, rfl, ?_⟩
    · rw [mappages, run_bind hwalk]
      rfl
    · rw [hfree, show rest = [] from hempty]
      rfl
  · have hgrow := htake.trans hwalked.grows (fun _ => id) fun _ => id
    have hheld₁ : own₁ f = .held :=
      (hwalked.grows.keep f (by rw [hheld]; exact nofun)).trans hheld
    have hno₁ : ¬Present (m₁.pteOf d v) := by
      rw [hgrow.pte d v hd fun e => e.2]
      exact hno
    have hpage := settles_page hgrow.wf hheld₁ (hgrow.dir hd) hwalked.table hv hno₁ hperm
    have hrange := h.listed.range f (by rw [hown]; exact nofun)
    have hnew : (m₁.setPte d v (entry f perm)).pteOf d v = entry f perm := by
      rw [pteOf_setPte hgrow.wf (hgrow.dir hd) hwalked.table (entry_lt (by omega) hperm)
        (hgrow.dir hd), if_pos ⟨rfl, rfl⟩]
    have hframe : frame ((m₁.setPte d v (entry f perm)).pteOf d v) = f := by
      rw [hnew, frame_entry perm hperm]
    refine .inl ⟨_, _, mappages_entry hno₁ hwalked.table hwalk,
      hgrow.settle hown hpage (fun _ => False.elim) fun _ => id,
      ⟨by rw [hframe, hnew], ?_, by rw [hframe, hown], by rw [hframe, Function.update_self]⟩,
      hpage.not_lost fun g hgf hg e => hwalked.lost ⟨g, ?_, e⟩, hwalked.denied, ?_⟩
    · rw [hframe, hpage.data f (by rw [hheld₁]; trivial),
        hwalked.grows.data f (by rw [hheld]; trivial), Mem.page_setPage_self]
    · rw [Function.update_of_ne hgf, hg]
    · have hfew : rest.length ≤ m₁.free.length + 1 := hwalked.few
      have hlen : m.free.length = rest.length + 1 := by
        rw [hfree]
        rfl
      show m.free.length ≤ m₁.free.length + 2
      omega

/-! ## 4. Page after page -/

/-- The first `k` of `n` pages from `v` on have been mapped, with flags `perm` and bytes `x`; if a
page table was refused, the page after them is lost. -/
structure Filled (l : Layout) (d v n : Nat) (perm : Nat → Nat) (x : Nat → Page) (m : Mem)
    (own : Nat → Owner) (k : Nat) (m' : Mem) (own' : Nat → Owner) : Prop where
  le : k ≤ n
  grows : Grows l d (fun u => v ≤ u ∧ u < v + k) m own m' own'
  fresh : ∀ u, v ≤ u → u < v + k → Fresh d u (perm u) (x u) own m' own'
  count : (m'.denied = m.denied ∧ ¬Lost own own') ∨
    (m'.denied = m.denied + 1 ∧ Lost own own' ∧ k < n)
  few : m.free.length ≤ m'.free.length + 2 * n
  dry : k = n ∨ m'.free = []

section

variable {n k : Nat} {perm perm' : Nat → Nat} {x x' : Nat → Page}

/-- Nothing is to be done, or nothing can be. -/
theorem Filled.nil (h : Wf l m own) (hn : n = 0 ∨ m.free = []) :
    Filled l d v n perm x m own 0 m own :=
  ⟨Nat.zero_le n, .refl h d _, fun u hlo hhi => absurd hhi (by omega),
    .inl ⟨rfl, not_lost_refl own⟩, by omega, hn.imp_left Eq.symm⟩

/-- The first page is lost. -/
theorem Filled.lost (hg : Grows l d (fun _ => False) m own m' own') (hlost : Lost own own')
    (hfree : m'.free = []) (hden : m'.denied = m.denied + 1) (hone : m.free.length = 1)
    (hn : 0 < n) : Filled l d v n perm x m own 0 m' own' :=
  ⟨Nat.zero_le n, hg.mono fun _ => False.elim, fun u hlo hhi => absurd hhi (by omega),
    .inr ⟨hden, hlost, hn⟩, by omega, .inr hfree⟩

/-- The first page is mapped, and then the others. -/
theorem Filled.cons (hd : own d = .dir) (hg : Grows l d (· = v) m own m' own')
    (hfresh : Fresh d v (perm v) (x v) own m' own') (hlost : ¬Lost own own')
    (hden : m'.denied = m.denied) (hfew : m.free.length ≤ m'.free.length + 2)
    (hrest : Filled l d (v + 1) n perm' x' m' own' k m'' own'')
    (hsame : ∀ u, v + 1 ≤ u → u < v + 1 + k → perm' u = perm u ∧ x' u = x u) :
    Filled l d v (n + 1) perm x m own (k + 1) m'' own'' := by
  have hle := hrest.le
  refine ⟨by omega, hg.trans hrest.grows (fun u e => by omega) fun u e => by omega,
    fun u hlo hhi => ?_, ?_, ?_, hrest.dry.imp_left fun e => by rw [e]⟩
  · rcases eq_or_ne u v with rfl | hne
    · exact hfresh.mono hrest.grows (hg.dir hd) (by omega)
    · have hu := hrest.fresh u (by omega) (by omega)
      obtain ⟨hperm, hx⟩ := hsame u (by omega) (by omega)
      rw [hperm, hx] at hu
      exact ⟨hu.entry, hu.bytes, hg.free_of_free hu.before, hu.after⟩
  · rw [hg.lost_iff hrest.grows, ← hden]
    rcases hrest.count with ⟨hden', hlost'⟩ | ⟨hden', hlost', hlt⟩
    · exact .inl ⟨hden', fun e => e.elim hlost hlost'⟩
    · exact .inr ⟨hden', .inr hlost', by omega⟩
  · have := hrest.few
    omega

/-- With two free frames for every page, all pages are mapped and none is lost. -/
theorem Filled.all (h : Filled l d v n perm x m own k m' own') (hmany : 2 * n < m.free.length) :
    k = n ∧ m'.denied = m.denied := by
  have hk : k = n := h.dry.resolve_right fun e => by
    have := h.few
    rw [e, List.length_nil] at this
    omega
  exact ⟨hk, (h.count.resolve_right fun e => by omega).1⟩

end

/-- **One round of `allocuvm`.** -/
theorem allocPage_spec (h : Wf l m own) (hd : own d = .dir) (hv : v < 2 ^ 19)
    (hno : ¬Present (m.pteOf d v)) :
    (m.free = [] ∧ allocPage d v l m = .ok false m) ∨
      ∃ m' own', allocPage d v l m = .ok true m' ∧
        ((Grows l d (· = v) m own m' own' ∧ Fresh d v 6 (fun _ => 0) own m' own' ∧
            ¬Lost own own' ∧ m'.denied = m.denied ∧ m.free.length ≤ m'.free.length + 2) ∨
          (Grows l d (fun _ => False) m own m' own' ∧ Lost own own' ∧ m'.free = [] ∧
            m'.denied = m.denied + 1 ∧ m.free.length = 1)) := by
  unfold allocPage
  cases hfree : m.free with
  | nil =>
    rw [run_bind (kalloc_nil hfree)]
    exact .inl ⟨rfl, rfl⟩
  | cons f rest =>
    refine .inr ?_
    rw [run_bind (kalloc_cons hfree), ← hfree]
    simp only
    rw [run_bind (show memset f 0 l _ = .ok () _ from rfl)]
    rcases mappages_fresh h hd hv hno hfree (show 6 < 4096 by decide) fun _ => 0 with
      ⟨m', own', hmap, hends⟩ | ⟨m', own', hmap, hends⟩
    · exact ⟨m', own', run_bind hmap, .inl hends⟩
    · exact ⟨m', own', run_bind hmap, .inr hends⟩

/-- Without free pages the loop is over. -/
theorem allocLoop_empty (hf : m.free = []) (n d v : Nat) :
    allocLoop n d v l m = .ok (n == 0) m := by
  cases n with
  | zero => rfl
  | succ n =>
    rw [allocLoop, run_bind (show allocPage d v l m = .ok false m from run_bind (kalloc_nil hf))]
    rfl

/-- **The loop of `allocuvm`.**  It counts a page that is lost. -/
theorem allocLoop_spec {n : Nat} (h : Wf l m own) (hd : own d = .dir) (hn : v + n ≤ 2 ^ 19)
    (hno : ∀ u, v ≤ u → u < v + n → ¬Present (m.pteOf d u)) :
    ∃ r k m' own', allocLoop n d v l m = .ok r m' ∧
      Filled l d v n (fun _ => 6) (fun _ _ => 0) m own k m' own' ∧
      (r = true ↔ k + m'.denied = n + m.denied) := by
  induction n generalizing v m own with
  | zero => exact ⟨true, 0, m, own, rfl, .nil h (.inl rfl), by simp⟩
  | succ n ih =>
    rcases allocPage_spec h hd (by omega) (hno v (Nat.le_refl _) (by omega)) with
      ⟨hempty, -⟩ | ⟨m₁, own₁, hrun, hends⟩
    · exact ⟨false, 0, m, own, allocLoop_empty hempty _ _ _, .nil h (.inr hempty), by simp⟩
    · rw [allocLoop, run_bind hrun, if_pos rfl]
      rcases hends with ⟨hgrow, hfresh, hlost, hden, hfew⟩ | ⟨hgrow, hlost, hempty, hden, hone⟩
      · obtain ⟨r, k, m', own', hrun', hfilled, hr⟩ :=
          ih (v := v + 1) hgrow.wf (hgrow.dir hd) (by omega) fun u hlo hhi => by
            rw [hgrow.pte d u hd fun e => by omega]
            exact hno u (by omega) (by omega)
        exact ⟨r, k + 1, m', own', hrun',
          .cons hd hgrow hfresh hlost hden hfew hfilled fun _ _ _ => ⟨rfl, rfl⟩,
          hr.trans (by omega)⟩
      · -- the page is lost, and there is none left for the next round
        refine ⟨n == 0, 0, m₁, own₁, allocLoop_empty hempty _ _ _,
          .lost hgrow hlost hempty hden hone (Nat.succ_pos n), ?_⟩
        rw [beq_iff_eq]
        omega

/-! ## 5. Shrinking -/

/-- The pages `P` of directory `d` are gone, and their frames are free. -/
structure Shrinks (l : Layout) (d : Nat) (P : Nat → Prop) (m : Mem) (own : Nat → Owner) (m' : Mem)
    (own' : Nat → Owner) : Prop where
  wf : Wf l m' own'
  keep : ∀ f, (∀ u, P u → own f ≠ .page d u) → own' f = own f
  data : ∀ f, (own f).IsData → (∀ u, P u → own f ≠ .page d u) → m'.page f = m.page f
  freed : ∀ f u, P u → own f = .page d u → own' f = .free
  pte : ∀ d' u, own d' = .dir → ¬(d' = d ∧ P u) → m'.pteOf d' u = m.pteOf d' u
  gone : ∀ u, P u → ¬Present (m'.pteOf d u)
  table : ∀ d' u, own d' = .dir → (m'.HasTable d' u ↔ m.HasTable d' u)
  denied : m'.denied = m.denied

theorem Shrinks.refl (h : Wf l m own) (hgone : ∀ u, P u → ¬Present (m.pteOf d u)) :
    Shrinks l d P m own m own where
  wf := h
  keep _ _ := rfl
  data _ _ _ := rfl
  freed f u hu e := absurd ((h.tables.page d u f).mp e).2.2.1 (hgone u hu)
  pte _ _ _ _ := rfl
  gone := hgone
  table _ _ _ := Iff.rfl
  denied := rfl

theorem Shrinks.dir (h : Shrinks l d P m own m' own') (hd : own f = .dir) : own' f = .dir :=
  (h.keep f fun _ _ e => by rw [hd] at e; cases e).trans hd

/-- What was not there is not there afterwards. -/
theorem Shrinks.not_present (h : Shrinks l d P m own m' own') (hd : own d = .dir)
    (hno : ¬Present (m.pteOf d v)) : ¬Present (m'.pteOf d v) := by
  by_cases hv : P v
  · exact h.gone v hv
  · rwa [h.pte d v hd fun e => hv e.2]

theorem Shrinks.trans (h : Shrinks l d P m own m' own') (h' : Shrinks l d Q m' own' m'' own'')
    (hd : own d = .dir) (hR : ∀ u, R u ↔ P u ∨ Q u) : Shrinks l d R m own m'' own'' := by
  have hkeep : ∀ f, (∀ u, R u → own f ≠ .page d u) →
      own' f = own f ∧ ∀ u, Q u → own' f ≠ .page d u := fun f hf => by
    have hsame := h.keep f fun u hu => hf u ((hR u).mpr (.inl hu))
    exact ⟨hsame, fun u hu => hsame ▸ hf u ((hR u).mpr (.inr hu))⟩
  refine ⟨h'.wf, fun f hf => ?_, fun f hdata hf => ?_, fun f u hu e => ?_, fun d' u hd' hu => ?_,
    fun u hu => ?_, fun d' u hd' => ?_, h'.denied.trans h.denied⟩
  · obtain ⟨hsame, hrest⟩ := hkeep f hf
    exact (h'.keep f hrest).trans hsame
  · obtain ⟨hsame, hrest⟩ := hkeep f hf
    exact (h'.data f (hsame ▸ hdata) hrest).trans
      (h.data f hdata fun u hu => hf u ((hR u).mpr (.inl hu)))
  · by_cases hp : P u
    · have hfree := h.freed f u hp e
      exact (h'.keep f fun _ _ e' => by rw [hfree] at e'; cases e').trans hfree
    · have hsame := h.keep f fun u' hu' e' => hp (by rw [e] at e'; cases e'; exact hu')
      exact h'.freed f u (((hR u).mp hu).resolve_left hp) (hsame.trans e)
  · exact (h'.pte d' u (h.dir hd') fun e => hu ⟨e.1, (hR u).mpr (.inr e.2)⟩).trans
      (h.pte d' u hd' fun e => hu ⟨e.1, (hR u).mpr (.inl e.2)⟩)
  · rcases (hR u).mp hu with hp | hq
    · exact h'.not_present (h.dir hd) (h.gone u hp)
    · exact h'.gone u hq
  · exact (h'.table d' u (h.dir hd')).trans (h.table d' u hd')

theorem Shrinks.congr (h : Shrinks l d P m own m' own') (hPQ : ∀ u, P u ↔ Q u) :
    Shrinks l d Q m own m' own' := by
  obtain rfl : P = Q := funext fun u => propext (hPQ u)
  exact h

/-- `kfree` of a frame that is managed. -/
theorem kfree_eq (hlo : l.first ≤ f) (hhi : f < 57344) :
    kfree f l m = .ok () { m.setPage f (fun _ => 1) with free := f :: m.free } := by
  unfold kfree
  rw [run_bind (show self l m = .ok l m from rfl),
    run_bind (panicIf_of_not (by omega) _ l m)]
  rfl

/-- **One round of `deallocuvm`.** -/
theorem deallocPage_spec (h : Wf l m own) (hd : own d = .dir) (hv : v < 2 ^ 19) :
    (¬m.HasTable d v ∧ deallocPage d v l m = .ok (v + 1024) m) ∨
      (m.HasTable d v ∧ ∃ m' own', deallocPage d v l m = .ok (v + 1) m' ∧
        Shrinks l d (· = v) m own m' own') := by
  unfold deallocPage
  rw [run_bind (walkpgdir_look l m d v)]
  by_cases ht : m.HasTable d v
  · refine .inr ⟨ht, ?_⟩
    rw [if_pos ht]
    simp only
    rw [run_bind (gets_pte l ht)]
    by_cases hp : Present (m.pteOf d v)
    · have hown := (h.tables.page d v _).mpr ⟨hd, hv, hp, rfl⟩
      have hrange := h.listed.range _ (by rw [hown]; rintro ⟨⟩)
      have habove := l.above
      generalize hf : frame (m.pteOf d v) = f at hown hrange
      have hunmap := (h.unmap hd ht hown).give (Function.update_self ..) fun _ => 1
      rw [Function.update_idem] at hunmap
      have hft : f ≠ frame (m.pde d (v / 1024)) := fun e => by
        rw [e, h.tables.own_table hd ht] at hown
        cases hown
      -- the source frees the page first and clears the entry then
      have hsame : ({ m.setPage f (fun _ => 1) with free := f :: m.free } : Mem).setWord
          (frame (m.pde d (v / 1024))) (v % 1024) 0 =
          { (m.setPte d v 0).setPage f (fun _ => 1) with free := f :: m.free } := by
        simp only [Mem.setPte, Mem.setWord, Mem.setPage]
        rw [Function.update_of_ne hft.symm, Function.update_comm hft]
      have hrun : when (Present (m.pteOf d v)) (do
          panicIf (f = 0) .kfree
          kfree f
          modify (·.setWord (frame (m.pde d (v / 1024))) (v % 1024) 0)) l m =
            .ok () { (m.setPte d v 0).setPage f (fun _ => 1) with free := f :: m.free } := by
        rw [when_of hp, run_bind (panicIf_of_not (show f ≠ 0 by omega) _ l m),
          run_bind (kfree_eq hrange.1 hrange.2), ← hsame]
        rfl
      rw [run_bind hrun]
      have hpte := fun {d' u : Nat} (hd' : own d' = .dir) =>
        (h.unmap hd ht hown).tables.pteOf_setPage (v := u)
          (by rw [Function.update_self]; exact id) (fun _ => 1)
          (show Function.update own f .held d' = .dir by
            rw [Function.update_of_ne (ne_of_dir hd' hown (by rintro ⟨⟩)).symm, hd'])
      have hset := fun {d' u : Nat} (hd' : own d' = .dir) =>
        pteOf_setPte h hd ht (w := 0) (by decide) (u := u) hd'
      refine ⟨_, _, rfl, hunmap, fun g hg => ?_, fun g hdata hg => ?_, fun g u hu e => ?_,
        fun d' u hd' hu => ?_, fun u hu => ?_, fun d' u hd' => ?_, rfl⟩
      · rw [Function.update_of_ne]
        rintro rfl
        exact hg v rfl hown
      · show ((m.setPte d v 0).setPage f fun _ => 1).page g = m.page g
        rw [Mem.page_setPage_of_ne _ (by rintro rfl; exact hg v rfl hown),
          page_setPte h hd ht hdata.not_isTable]
      · have hgf : g = f := by
          have := ((h.tables.page d u g).mp e).2.2.2
          rw [hu, hf] at this
          exact this.symm
        rw [hgf, Function.update_self]
      · exact (hpte hd').trans ((hset hd').trans (if_neg hu))
      · subst hu
        show ¬Present (((m.setPte d u 0).setPage f fun _ => 1).pteOf d u)
        rw [hpte hd, hset hd, if_pos ⟨rfl, rfl⟩]
        exact not_present_zero
      · show ((m.setPte d v 0).setPage f fun _ => 1).HasTable d' u ↔ _
        unfold Mem.HasTable
        rw [pde_setPage_of_ne _ (ne_of_dir hd' hown (by rintro ⟨⟩)).symm, pde_setPte h hd ht hd']
    · refine ⟨m, own, ?_, .refl h fun u hu => by rwa [hu]⟩
      rw [run_bind (when_of_not hp _ l m)]
      rfl
  · rw [if_neg ht]
    exact .inl ⟨ht, rfl⟩

/-- The loop of `deallocuvm`, begun at page `v`, comes by page `u`.  Where there is no table it skips
1024 pages from where it is: in the first table that it finds it misses the pages in front of this
place, and from the next table on it misses none. -/
def Mem.Reaches (m : Mem) (d v u : Nat) : Prop :=
  v ≤ u ∧ m.HasTable d u ∧
    (v % 1024 ≤ u % 1024 ∨ ∃ w, v ≤ w ∧ w / 1024 < u / 1024 ∧ m.HasTable d w)

theorem hasTable_congr {u : Nat} (h : u / 1024 = v / 1024) : m.HasTable d u ↔ m.HasTable d v := by
  unfold Mem.HasTable
  rw [h]

theorem reaches_skip {u : Nat} (ht : ¬m.HasTable d v) :
    m.Reaches d v u ↔ m.Reaches d (v + 1024) u := by
  -- a page with a table is in no case in the same table as `v`
  have hne : ∀ w, m.HasTable d w → w / 1024 ≠ v / 1024 := fun w hw e =>
    ht ((hasTable_congr e).mp hw)
  constructor
  · rintro ⟨hle, hu, hlow | ⟨w, hw, hlt, htable⟩⟩
    · have := hne u hu
      exact ⟨by omega, hu, .inl (by omega)⟩
    · have := hne w htable
      refine ⟨by omega, hu, .inr ⟨max w (v + 1024), by omega, by omega, ?_⟩⟩
      rcases Nat.le_total w (v + 1024) with hmax | hmax
      · rw [Nat.max_eq_right hmax]
        exact (hasTable_congr (by omega)).mp htable
      · rwa [Nat.max_eq_left hmax]
  · rintro ⟨hle, hu, hlow | ⟨w, hw, hlt, htable⟩⟩
    · exact ⟨by omega, hu, .inl (by omega)⟩
    · exact ⟨by omega, hu, .inr ⟨w, by omega, hlt, htable⟩⟩

theorem reaches_next {u : Nat} (ht : m.HasTable d v) :
    m.Reaches d v u ↔ u = v ∨ m.Reaches d (v + 1) u := by
  constructor
  · rintro ⟨hle, hu, -⟩
    by_cases hv : u = v
    · exact .inl hv
    · refine .inr ⟨by omega, hu, ?_⟩
      by_cases hnext : (v + 1) % 1024 ≤ u % 1024
      · exact .inl hnext
      · exact .inr ⟨v + 1, Nat.le_refl _, by omega, (hasTable_congr (by omega)).mpr ht⟩
  · rintro (rfl | ⟨hle, hu, -⟩)
    · exact ⟨Nat.le_refl _, ht, .inl (Nat.le_refl _)⟩
    · refine ⟨by omega, hu, ?_⟩
      by_cases hsame : v / 1024 = u / 1024
      · exact .inl (by omega)
      · exact .inr ⟨v, Nat.le_refl _, by omega, ht⟩

/-- The loop unmaps the pages by which it comes, and no others. -/
theorem deallocLoop_spec {rounds oldsz : Nat} (h : Wf l m own) (hd : own d = .dir)
    (hsz : oldsz ≤ 2 ^ 31) (hr : oldsz ≤ 4096 * (v + rounds)) :
    ∃ m' own', deallocLoop rounds d oldsz v l m = .ok () m' ∧
      Shrinks l d (fun u => 4096 * u < oldsz ∧ m.Reaches d v u) m own m' own' := by
  induction rounds generalizing v m own with
  | zero => exact ⟨m, own, rfl, .refl h fun u hu => absurd hu.2.1 (by omega)⟩
  | succ rounds ih =>
    rw [deallocLoop]
    by_cases hle : oldsz ≤ 4096 * v
    · rw [if_pos hle]
      exact ⟨m, own, rfl, .refl h fun u hu => absurd hu.2.1 (by omega)⟩
    · rw [if_neg hle]
      rcases deallocPage_spec h hd (show v < 2 ^ 19 by omega) with
        ⟨ht, hrun⟩ | ⟨ht, m₁, own₁, hrun, hshrink⟩
      · rw [run_bind hrun]
        obtain ⟨m', own', hrun', hrest⟩ := ih (v := v + 1024) h hd (by omega)
        exact ⟨m', own', hrun', hrest.congr fun u => by rw [reaches_skip ht]⟩
      · rw [run_bind hrun]
        obtain ⟨m', own', hrun', hrest⟩ := ih (v := v + 1) hshrink.wf (hshrink.dir hd) (by omega)
        have hreach : ∀ u, m₁.Reaches d (v + 1) u ↔ m.Reaches d (v + 1) u := fun u => by
          unfold Mem.Reaches
          simp only [hshrink.table d _ hd]
        refine ⟨m', own', hrun', hshrink.trans hrest hd fun u => ?_⟩
        rw [reaches_next ht, hreach]
        constructor
        · rintro ⟨hlt, hu | hu⟩
          · exact .inl hu
          · exact .inr ⟨hlt, hu⟩
        · rintro (hu | ⟨hlt, hu⟩)
          · exact ⟨by omega, .inl hu⟩
          · exact ⟨hlt, .inr hu⟩

/-- **`deallocuvm`** returns `newsz`, whatever it has come by. -/
theorem deallocuvm_reaches {oldsz newsz : Nat} (h : Wf l m own) (hd : own d = .dir)
    (hsz : oldsz ≤ 2 ^ 31) (hlt : newsz < oldsz) :
    ∃ m' own', deallocuvm d oldsz newsz l m = .ok newsz m' ∧
      Shrinks l d (fun u => 4096 * u < oldsz ∧ m.Reaches d (pageUp newsz) u) m own m' own' := by
  have hrounds : oldsz ≤ 4096 * (pageUp newsz + (oldsz / 4096 + 1)) := by omega
  obtain ⟨m', own', hrun, hshrink⟩ := deallocLoop_spec h hd hsz hrounds
  refine ⟨m', own', ?_, hshrink⟩
  unfold deallocuvm
  rw [if_neg (by omega), run_bind hrun]
  rfl

/-- Pages that are not mapped may be counted among those that are gone. -/
theorem Shrinks.widen (h : Wf l m own) (hs : Shrinks l d P m own m' own') (hd : own d = .dir)
    (hPQ : ∀ u, P u → Q u) (hno : ∀ u, Q u → ¬P u → ¬Present (m.pteOf d u)) :
    Shrinks l d Q m own m' own' := by
  have hrest : Shrinks l d (fun u => Q u ∧ ¬P u) m own m own := .refl h fun u hu => hno u hu.1 hu.2
  refine hrest.trans hs hd fun u => ⟨fun hq => ?_, ?_⟩
  · by_cases hp : P u
    · exact .inr hp
    · exact .inl ⟨hq, hp⟩
  · rintro (⟨hq, -⟩ | hp)
    · exact hq
    · exact hPQ u hp

/-- **`deallocuvm`**, where it comes by everything that is mapped. -/
theorem deallocuvm_spec {oldsz newsz : Nat} (h : Wf l m own) (hd : own d = .dir)
    (hsz : oldsz ≤ 2 ^ 31) (hlt : newsz < oldsz)
    (hall : ∀ u, pageUp newsz ≤ u → 4096 * u < oldsz → Present (m.pteOf d u) →
      m.Reaches d (pageUp newsz) u) :
    ∃ m' own', deallocuvm d oldsz newsz l m = .ok newsz m' ∧
      Shrinks l d (fun u => pageUp newsz ≤ u ∧ 4096 * u < oldsz) m own m' own' := by
  obtain ⟨m', own', hrun, hshrink⟩ := deallocuvm_reaches h hd hsz hlt
  exact ⟨m', own', hrun, hshrink.widen h hd (fun u hu => ⟨hu.2.1, hu.1⟩)
    fun u hu hmiss hp => hmiss ⟨hu.2, hall u hu.1 hu.2 hp⟩⟩

/-- Where the first table is there, or the loop begins at its beginning, nothing is missed. -/
theorem reaches_of_present {u : Nat} (hle : v ≤ u) (hp : Present (m.pteOf d u))
    (hv : m.HasTable d v ∨ v % 1024 = 0) : m.Reaches d v u := by
  refine ⟨hle, hasTable_of_present hp, ?_⟩
  rcases hv with hv | hv
  · by_cases hsame : v / 1024 = u / 1024
    · exact .inl (by omega)
    · exact .inr ⟨v, Nat.le_refl _, by omega, hv⟩
  · exact .inl (by omega)

/-! ## 6. `allocuvm` -/

/-- A page below the last one begins below the end. -/
theorem lt_pageUp_iff {sz : Nat} (hsz : sz ≤ 2 ^ 31) : v < pageUp sz ↔ 4096 * v < sz := by
  unfold pageUp
  omega

theorem pageUp_le {sz sz' : Nat} (h : sz ≤ sz') (hsz : sz' ≤ 2 ^ 31) : pageUp sz ≤ pageUp sz' := by
  unfold pageUp
  omega

/-- **`allocuvm` when it fails**: the pages that it had mapped are free again. -/
theorem allocuvm_undo {oldsz newsz k n : Nat} {perm : Nat → Nat} {x : Nat → Page}
    (hnew : newsz < 2 ^ 31) (hlt : oldsz < newsz) (hn : pageUp oldsz + n = pageUp newsz)
    (hd : own d = .dir) (hfilled : Filled l d (pageUp oldsz) n perm x m own k m' own')
    (hno : ∀ u, pageUp oldsz ≤ u → u < pageUp newsz → ¬Present (m.pteOf d u)) :
    ∃ m'' own'', deallocuvm d newsz oldsz l m' = .ok oldsz m'' ∧
      Shrinks l d (fun u => pageUp oldsz ≤ u ∧ u < pageUp newsz) m' own' m'' own'' := by
  have hle := hfilled.le
  obtain ⟨m'', own'', hrun, hshrink⟩ := deallocuvm_spec hfilled.grows.wf (hfilled.grows.dir hd)
    (show newsz ≤ 2 ^ 31 by omega) hlt fun u hu hlast hp => by
      rw [← lt_pageUp_iff (by omega)] at hlast
      by_cases hin : u < pageUp oldsz + k
      · exact reaches_of_present hu hp
          (.inl (hasTable_of_present (hfilled.fresh _ (Nat.le_refl _) (by omega)).present))
      · rw [hfilled.grows.pte d u hd fun e => hin e.2.2] at hp
        exact absurd hp (hno u hu hlast)
  exact ⟨m'', own'', hrun, hshrink.congr fun u => by rw [lt_pageUp_iff (by omega)]⟩

/-- Growth that is taken back: no page of `P` is mapped, and one frame may be lost. -/
structure Undone (l : Layout) (d : Nat) (P : Nat → Prop) (m : Mem) (own : Nat → Owner) (m' : Mem)
    (own' : Nat → Owner) : Prop where
  grows : Grows l d P m own m' own'
  none : ∀ u, P u → ¬Present (m'.pteOf d u)
  count : (m'.denied = m.denied ∧ ¬Lost own own') ∨ (m'.denied = m.denied + 1 ∧ Lost own own')

theorem Grows.undo (h : Wf l m own) (hg : Grows l d P m own m' own')
    (hs : Shrinks l d Q m' own' m'' own'') (hPQ : ∀ u, P u → Q u)
    (hno : ∀ u, Q u → ¬Present (m.pteOf d u)) :
    Grows l d Q m own m'' own'' ∧ (Lost own own'' ↔ Lost own own') := by
  have hkeep : ∀ f, own f ≠ .free →
      own' f = own f ∧ ∀ u, Q u → own' f ≠ .page d u := fun f hf => by
    refine ⟨hg.keep f hf, fun u hu e => hno u hu ?_⟩
    rw [hg.keep f hf] at e
    exact ((h.tables.page d u f).mp e).2.2.1
  -- a frame was a page and is free now, or it is what it was
  have hcase : ∀ f, own'' f = .free ∨ own'' f = own' f := fun f => by
    by_cases hq : ∃ u, Q u ∧ own' f = .page d u
    · obtain ⟨u, hu, e⟩ := hq
      exact .inl (hs.freed f u hu e)
    · exact .inr (hs.keep f fun u hu e => hq ⟨u, hu, e⟩)
  have hheld : ∀ f, own' f = .held → own'' f = .held := fun f e =>
    (hs.keep f fun u _ => e ▸ nofun).trans e
  refine ⟨⟨hs.wf, fun f hf => ?_, fun f hf => ?_, fun d' u hd' hu => ?_, fun d' u hd' ht => ?_,
    fun f hf => ?_⟩, ?_⟩
  · obtain ⟨hsame, hrest⟩ := hkeep f hf
    exact (hs.keep f hrest).trans hsame
  · obtain ⟨hsame, hrest⟩ := hkeep f hf.ne_free
    exact (hs.data f (hsame ▸ hf) hrest).trans (hg.data f hf)
  · exact (hs.pte d' u (hg.dir hd') hu).trans (hg.pte d' u hd' fun e => hu ⟨e.1, hPQ u e.2⟩)
  · exact (hs.table d' u (hg.dir hd')).mpr (hg.table d' u hd' ht)
  · rcases hcase f with e | e
    · exact .inl e
    · rw [e]
      exact (hg.taken f hf).imp_right (.imp_right (·.mono hPQ))
  · refine exists_congr fun f => and_congr_right fun hf => ⟨fun e => ?_, hheld f⟩
    rcases hcase f with e' | e'
    · rw [e'] at e
      cases e
    · exact e'.symm.trans e

/-- **How `allocuvm` ends.**  With `newsz`, all pages are mapped or all but the last; with 0, none
is.  One page is lost if a page table was refused, and otherwise none. -/
theorem allocuvm_spec {oldsz newsz : Nat} (h : Wf l m own) (hd : own d = .dir)
    (hle : oldsz ≤ newsz) (hnew : newsz < 2 ^ 31)
    (hno : ∀ u, pageUp oldsz ≤ u → u < pageUp newsz → ¬Present (m.pteOf d u)) :
    ∃ m' own',
      (allocuvm d oldsz newsz l m = .ok newsz m' ∧ ∃ k,
        Filled l d (pageUp oldsz) (pageUp newsz - pageUp oldsz) (fun _ => 6) (fun _ _ => 0)
          m own k m' own' ∧ k + m'.denied = pageUp newsz - pageUp oldsz + m.denied) ∨
      (oldsz < newsz ∧ allocuvm d oldsz newsz l m = .ok 0 m' ∧
        m.free.length ≤ 2 * (pageUp newsz - pageUp oldsz) ∧
        Undone l d (fun u => pageUp oldsz ≤ u ∧ u < pageUp newsz) m own m' own') := by
  have hups := pageUp_le hle (Nat.le_of_lt hnew)
  have hhigh := pageUp_le (Nat.le_of_lt hnew) (Nat.le_refl _)
  have htop : pageUp (2 ^ 31) = 2 ^ 19 := by decide
  obtain ⟨r, k, m₁, own₁, hrun, hfilled, hr⟩ := allocLoop_spec (v := pageUp oldsz)
    (n := pageUp newsz - pageUp oldsz) h hd (by omega) fun u hlo hhi => hno u hlo (by omega)
  have hkn := hfilled.le
  unfold allocuvm
  rw [if_neg (by omega), if_neg (by omega), run_bind hrun]
  cases r with
  | true => exact ⟨m₁, own₁, .inl ⟨rfl, k, hfilled, hr.mp rfl⟩⟩
  | false =>
    have hfalse : k + m₁.denied ≠ pageUp newsz - pageUp oldsz + m.denied := fun e =>
      absurd (hr.mpr e) nofun
    have hcount := hfilled.count
    have hlt : oldsz < newsz := by
      by_contra hge
      obtain rfl : oldsz = newsz := by omega
      omega
    obtain ⟨m', own', hdealloc, hshrink⟩ := allocuvm_undo hnew hlt (by omega) hd hfilled hno
    obtain ⟨hgrow, hlost⟩ := hfilled.grows.undo h hshrink (fun u hu => ⟨hu.1, by omega⟩)
      fun u hu => hno u hu.1 hu.2
    refine ⟨m', own', .inr ⟨hlt, ?_, ?_, hgrow, hshrink.gone, ?_⟩⟩
    · rw [if_neg nofun, run_bind hdealloc]
      rfl
    · by_contra hmany
      obtain ⟨rfl, hden⟩ := hfilled.all (by omega)
      omega
    · rw [hshrink.denied, hlost]
      exact hcount.imp_right fun e => ⟨e.1, e.2.1⟩

/-- What was free is free or a table, if nothing is lost and no page is mapped. -/
theorem Grows.linked (h : Grows l d P m own m' own') (hd : own d = .dir) (hf : own f = .free)
    (hlost : ¬Lost own own') (hno : ∀ u, P u → ¬Present (m'.pteOf d u)) :
    own' f = .free ∨ ∃ i, own' f = .table d i := by
  rcases h.taken f hf with e | e | e
  · exact .inl e
  · exact absurd ⟨f, hf, e⟩ hlost
  · cases ho : own' f with
    | table d' i =>
      rw [ho] at e
      obtain rfl : d' = d := e
      exact .inr ⟨i, rfl⟩
    | page d' u =>
      rw [ho] at e
      obtain ⟨rfl, hu⟩ : d' = d ∧ P u := e
      exact absurd ((h.wf.tables.page d' u f).mp ho).2.2.1 (hno u hu)
    | dir =>
      rw [ho] at e
      obtain rfl : f = d := e
      rw [hf] at hd
      cases hd
    | _ =>
      rw [ho] at e
      exact e.elim

end

end Xv6.Vm
