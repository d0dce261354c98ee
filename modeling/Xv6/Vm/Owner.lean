/-
# Who owns a page

Every frame has ONE owner: it is on the free list, or is a page directory, or one of the tables of
a directory, or a page that a directory maps below KERNBASE, or it is HELD, taken from the free list
and neither mapped nor a table (a kernel stack, a pipe, or a page on its way to be mapped, or one
that is lost).  The source keeps no such record; `Wf` says that the bytes of the directories and
tables, and the free list, are those of a given record.

The functions of vm.c change the record a little at a time: a frame is taken from the free list, a
table is hung into a directory, an entry is written, a directory is taken apart.  Each of these has
its lemma here, with what becomes of the entries, and everything after this file is put together
from them.
-/
import Xv6.Vm.Mem

namespace Xv6.Vm

open Xv6.Bytes

/-! ## 1. The record -/

/-- What a frame is used for. -/
inductive Owner
  | outside
  | free
  | held
  | dir
  | table (d i : Nat)
  | page (d v : Nat)
  deriving DecidableEq, Repr

/-- The frame is read as an array of entries. -/
def Owner.IsTable : Owner → Prop
  | .dir => True
  | .table _ _ => True
  | _ => False

/-- The frame is neither free nor an array of entries: its bytes mean something to somebody else. -/
def Owner.IsData : Owner → Prop
  | .outside => True
  | .held => True
  | .page _ _ => True
  | _ => False

/-- The frame has nothing to do with any directory. -/
def Owner.Plain : Owner → Prop
  | .outside => True
  | .free => True
  | .held => True
  | _ => False

theorem Owner.IsData.not_isTable {o : Owner} (h : o.IsData) : ¬o.IsTable := by
  cases o <;> simp_all [Owner.IsData, Owner.IsTable]

theorem Owner.Plain.not_isTable {o : Owner} (h : o.Plain) : ¬o.IsTable := by
  cases o <;> simp_all [Owner.Plain, Owner.IsTable]

/-- The entry for page `v`; 0, where there is no table for it. -/
def Mem.pteOf (m : Mem) (d v : Nat) : Nat :=
  if Present (m.pde d (v / 1024)) then word (m.page (frame (m.pde d (v / 1024)))) (v % 1024) else 0

/-- There is a table for page `v`. -/
def Mem.HasTable (m : Mem) (d v : Nat) : Prop := Present (m.pde d (v / 1024))

instance (m : Mem) (d v : Nat) : Decidable (m.HasTable d v) :=
  inferInstanceAs (Decidable (Present _))

/-- The free list is that of the record, and `kfree` takes back everything that is managed. -/
structure Listed (l : Layout) (free : List Nat) (own : Nat → Owner) : Prop where
  nodup : free.Nodup
  free : ∀ f, f ∈ free ↔ own f = .free
  range : ∀ f, own f ≠ .outside → l.first ≤ f ∧ f < 57344

/-- The directories and tables are those of the record, and the user cannot get at what is mapped
from KERNBASE on. -/
structure Tables (m : Mem) (own : Nat → Owner) : Prop where
  table : ∀ d i f, own f = .table d i ↔
    own d = .dir ∧ i < 1024 ∧ Present (m.pde d i) ∧ frame (m.pde d i) = f
  page : ∀ d v f, own f = .page d v ↔
    own d = .dir ∧ v < 2 ^ 19 ∧ Present (m.pteOf d v) ∧ frame (m.pteOf d v) = f
  kernel : ∀ d v, own d = .dir → 2 ^ 19 ≤ v → v < 2 ^ 20 → Present (m.pteOf d v) →
    ¬User (m.pteOf d v)

structure Wf (l : Layout) (m : Mem) (own : Nat → Owner) : Prop where
  listed : Listed l m.free own
  tables : Tables m own

/-! ## 2. Writing a page -/

section

variable {l : Layout} {m m' : Mem} {own own' : Nat → Owner} {d f i v w : Nat}

@[simp] theorem Mem.page_setPage_self (x : Page) : (m.setPage f x).page f = x :=
  Function.update_self ..

theorem Mem.page_setPage_of_ne {g : Nat} (x : Page) (h : g ≠ f) :
    (m.setPage f x).page g = m.page g := Function.update_of_ne h ..

theorem pde_setPage_of_ne (x : Page) (h : d ≠ f) : (m.setPage f x).pde d i = m.pde d i := by
  rw [Mem.pde, Mem.page_setPage_of_ne x h, Mem.pde]

/-- There is no entry 1024. -/
theorem pde_of_le (h : 1024 ≤ i) : m.pde d i = 0 := by
  have hget : ∀ j, get (m.page d) (4 * i + j) = 0 := fun j => dif_neg (by omega)
  have hfield : field (m.page d) (4 * i) 4 = [0, 0, 0, 0] := by
    simp [field, hget, List.range_succ]
  rw [Mem.pde, word, hfield]
  rfl

theorem not_present_zero : ¬Present 0 := by decide

theorem pteOf_of_hasTable (h : m.HasTable d v) :
    m.pteOf d v = word (m.page (frame (m.pde d (v / 1024)))) (v % 1024) := if_pos h

theorem pteOf_of_not_hasTable (h : ¬m.HasTable d v) : m.pteOf d v = 0 := if_neg h

/-- What is mapped has a table. -/
theorem hasTable_of_present (h : Present (m.pteOf d v)) : m.HasTable d v := by
  by_contra hno
  rw [pteOf_of_not_hasTable hno] at h
  exact not_present_zero h

theorem lt_of_hasTable (h : m.HasTable d v) : v < 2 ^ 20 := by
  by_contra hge
  rw [Mem.HasTable, pde_of_le (by omega)] at h
  exact not_present_zero h

theorem pteOf_lt (m : Mem) (d v : Nat) : m.pteOf d v < 2 ^ 32 := by
  unfold Mem.pteOf
  split
  · exact word_lt _ _
  · decide

/-- The table for a page belongs to the directory. -/
theorem Tables.own_table (h : Tables m own) (hd : own d = .dir) (ht : m.HasTable d v) :
    own (frame (m.pde d (v / 1024))) = .table d (v / 1024) := by
  have hv := lt_of_hasTable ht
  exact (h.table d (v / 1024) _).mpr ⟨hd, by omega, ht, rfl⟩

/-- Only the directories' entries count. -/
theorem Tables.congr (h : Tables m own)
    (hpde : ∀ d i, own d = .dir → m'.pde d i = m.pde d i)
    (hpte : ∀ d v, own d = .dir → m'.pteOf d v = m.pteOf d v) : Tables m' own where
  table d i f := by
    rw [h.table d i f]
    exact and_congr_right fun hd => by rw [hpde d i hd]
  page d v f := by
    rw [h.page d v f]
    exact and_congr_right fun hd => by rw [hpte d v hd]
  kernel d v hd := by
    rw [hpte d v hd]
    exact h.kernel d v hd

section

variable (h : Tables m own) (hf : ¬(own f).IsTable) (x : Page)
include hf

/-- A page that is no table is written: the directories stay, -/
theorem pde_setPage (hd : own d = .dir) : (m.setPage f x).pde d i = m.pde d i :=
  pde_setPage_of_ne x fun he => hf (by rw [← he, hd]; trivial)

include h

/-- and so do all entries. -/
theorem Tables.pteOf_setPage (hd : own d = .dir) : (m.setPage f x).pteOf d v = m.pteOf d v := by
  unfold Mem.pteOf
  rw [pde_setPage hf x hd]
  split
  · rename_i ht
    rw [Mem.page_setPage_of_ne]
    intro he
    refine hf ?_
    rw [← he, h.own_table hd ht]
    trivial
  · rfl

theorem Tables.setPage : Tables (m.setPage f x) own :=
  h.congr (fun _ _ hd => pde_setPage hf x hd) fun _ _ hd => h.pteOf_setPage hf x hd

end

/-! ## 3. The free list -/

/-- A frame that is in no directory changes hands. -/
theorem update_plain {a b : Owner} (hf : (own f).Plain) (ha : a.Plain) (hb : ¬b.Plain) (g : Nat) :
    Function.update own f a g = b ↔ own g = b := by
  rcases eq_or_ne g f with rfl | hg
  · rw [Function.update_self]
    exact ⟨fun e => absurd (e ▸ ha) hb, fun e => absurd (e ▸ hf) hb⟩
  · rw [Function.update_of_ne hg]

theorem Tables.plain (h : Tables m own) {a : Owner} (hf : (own f).Plain) (ha : a.Plain) :
    Tables m (Function.update own f a) where
  table d i g := by
    rw [update_plain hf ha id, update_plain hf ha id]
    exact h.table d i g
  page d v g := by
    rw [update_plain hf ha id, update_plain hf ha id]
    exact h.page d v g
  kernel d v hd := h.kernel d v ((update_plain hf ha id d).mp hd)

/-- A frame that is not free goes to another owner. -/
theorem Listed.set (h : Listed l m.free own) {a : Owner} (hf : own f ≠ .free) (ho : own f ≠ .outside)
    (ha : a ≠ .free) : Listed l m.free (Function.update own f a) where
  nodup := h.nodup
  free g := by
    rw [h.free]
    rcases eq_or_ne g f with rfl | hg
    · rw [Function.update_self]
      exact ⟨fun e => absurd e hf, fun e => absurd e ha⟩
    · rw [Function.update_of_ne hg]
  range g hg := by
    rcases eq_or_ne g f with rfl | hne
    · exact h.range g ho
    · rw [Function.update_of_ne hne] at hg
      exact h.range g hg

/-- **A frame is taken from the free list.** -/
theorem Wf.take (h : Wf l m own) {rest : List Nat} (hf : m.free = f :: rest) :
    Wf l { m with free := rest } (Function.update own f .held) where
  listed := by
    have hnodup := h.listed.nodup
    have hown : own f = .free := (h.listed.free f).mp (by rw [hf]; exact List.mem_cons_self)
    rw [hf, List.nodup_cons] at hnodup
    refine ⟨hnodup.2, fun g => ?_, fun g hg => ?_⟩
    · rcases eq_or_ne g f with rfl | hne
      · rw [Function.update_self]
        exact ⟨fun hm => absurd hm hnodup.1, fun e => by cases e⟩
      · rw [Function.update_of_ne hne, ← h.listed.free g, hf, List.mem_cons]
        exact ⟨.inr, fun e => e.resolve_left hne⟩
    · rcases eq_or_ne g f with rfl | hne
      · exact h.listed.range g (by rw [hown]; exact nofun)
      · rw [Function.update_of_ne hne] at hg
        exact h.listed.range g hg
  tables := by
    have hown : own f = .free := (h.listed.free f).mp (by rw [hf]; exact List.mem_cons_self)
    exact (h.tables.plain (a := .held) (by rw [hown]; trivial) trivial).congr (fun _ _ _ => rfl)
      fun _ _ _ => rfl

/-- **A frame is given back.** -/
theorem Wf.give (h : Wf l m own) (hf : own f = .held) (x : Page) :
    Wf l { m.setPage f x with free := f :: m.free } (Function.update own f .free) where
  listed := by
    refine ⟨List.nodup_cons.mpr ⟨fun hm => ?_, h.listed.nodup⟩, fun g => ?_, fun g hg => ?_⟩
    · have := (h.listed.free f).mp hm
      rw [hf] at this
      cases this
    · rw [List.mem_cons]
      rcases eq_or_ne g f with rfl | hne
      · rw [Function.update_self]
        exact ⟨fun _ => rfl, fun _ => .inl rfl⟩
      · rw [Function.update_of_ne hne, ← h.listed.free g]
        exact ⟨fun e => e.resolve_left hne, .inr⟩
    · rcases eq_or_ne g f with rfl | hne
      · exact h.listed.range g (by rw [hf]; exact nofun)
      · rw [Function.update_of_ne hne] at hg
        exact h.listed.range g hg
  tables := by
    have hplain : (own f).Plain := by rw [hf]; trivial
    exact ((h.tables.setPage hplain.not_isTable x).plain hplain (a := .free) trivial).congr
      (fun _ _ _ => rfl) fun _ _ _ => rfl

/-- A page that is no table is written. -/
theorem Wf.fill (h : Wf l m own) (hf : ¬(own f).IsTable) (x : Page) : Wf l (m.setPage f x) own :=
  ⟨h.listed, h.tables.setPage hf x⟩

/-! ## 4. Directories and tables -/

theorem frame_entry (perm : Nat) (hp : perm < 4096) : frame (entry f perm) = f := by
  unfold frame entry
  omega

theorem present_entry (f perm : Nat) : Present (entry f perm) := by
  unfold Present entry
  omega

theorem entry_lt {perm : Nat} (hf : f < 2 ^ 20) (hp : perm < 4096) : entry f perm < 2 ^ 32 := by
  unfold entry
  omega

/-- A frame of zeros becomes a directory that maps nothing. -/
theorem pteOf_zero (hz : m.page f = fun _ => 0) (v : Nat) : m.pteOf f v = 0 := by
  refine if_neg ?_
  rw [Mem.pde, hz, word_zero]
  exact not_present_zero

theorem Wf.newDir (h : Wf l m own) (hf : own f = .held) (hz : m.page f = fun _ => 0) :
    Wf l m (Function.update own f .dir) where
  listed := h.listed.set (by rw [hf]; exact nofun) (by rw [hf]; exact nofun) nofun
  tables := by
    have hpde : ∀ i, ¬Present (m.pde f i) := fun i => by
      rw [Mem.pde, hz, word_zero]
      exact not_present_zero
    have hpte : ∀ v, ¬Present (m.pteOf f v) := fun v => by
      rw [pteOf_zero hz]
      exact not_present_zero
    have hdir : ∀ d, d ≠ f → (Function.update own f .dir d = .dir ↔ own d = .dir) := fun d hd => by
      rw [Function.update_of_ne hd]
    -- nobody was mapped by a frame that was no directory
    have hnone : own f ≠ .dir := by rw [hf]; exact nofun
    refine ⟨fun d i g => ?_, fun d v g => ?_, fun d v hd => ?_⟩
    · rcases eq_or_ne d f with rfl | hd
      · refine ⟨fun e => ?_, fun e => absurd e.2.2.1 (hpde i)⟩
        rcases eq_or_ne g d with rfl | hg
        · rw [Function.update_self] at e
          cases e
        · rw [Function.update_of_ne hg, h.tables.table] at e
          exact absurd e.1 hnone
      · rw [hdir d hd, ← h.tables.table d i g]
        rcases eq_or_ne g f with rfl | hg
        · rw [Function.update_self, hf]
          exact ⟨nofun, nofun⟩
        · rw [Function.update_of_ne hg]
    · rcases eq_or_ne d f with rfl | hd
      · refine ⟨fun e => ?_, fun e => absurd e.2.2.1 (hpte v)⟩
        rcases eq_or_ne g d with rfl | hg
        · rw [Function.update_self] at e
          cases e
        · rw [Function.update_of_ne hg, h.tables.page] at e
          exact absurd e.1 hnone
      · rw [hdir d hd, ← h.tables.page d v g]
        rcases eq_or_ne g f with rfl | hg
        · rw [Function.update_self, hf]
          exact ⟨nofun, nofun⟩
        · rw [Function.update_of_ne hg]
    · rcases eq_or_ne d f with rfl | hne
      · exact fun _ _ hp => absurd hp (hpte v)
      · exact h.tables.kernel d v ((hdir d hne).mp hd)

/-- A word of a page is written: of the directories, one entry changes at most. -/
theorem pde_setWord (hi : i < 1024) (hw : w < 2 ^ 32) (d' i' : Nat) :
    (m.setWord d i w).pde d' i' = if d' = d ∧ i' = i then w else m.pde d' i' := by
  rcases eq_or_ne d' d with rfl | hne
  · rw [Mem.pde, Mem.setWord, Mem.page_setPage_self]
    rcases eq_or_ne i' i with rfl | hni
    · rw [word_setWord_self _ (by omega) hw, if_pos ⟨rfl, rfl⟩]
    · rw [if_neg fun e => hni e.2]
      by_cases hlt : i' < 1024
      · exact word_setWord_of_ne _ (by omega) hni
      · have hpast := pde_of_le (m := m.setWord d' i w) (d := d') (i := i') (by omega)
        rw [Mem.pde, Mem.setWord, Mem.page_setPage_self] at hpast
        rw [hpast, pde_of_le (by omega)]
  · rw [if_neg fun e => hne e.1]
    exact pde_setPage_of_ne _ hne

/-- A table of zeros is hung into a directory: no entry changes, of the directories that do not have
this directory for a table. -/
theorem pteOf_setWord_zero {d' : Nat} (hi : i < 1024) (hrange : f < 2 ^ 20) (hfd : f ≠ d)
    (hz : m.page f = fun _ => 0) (hno : ¬Present (m.pde d i))
    (htable : m.HasTable d' v → frame (m.pde d' (v / 1024)) ≠ d) :
    (m.setWord d i (4096 * f + 7)).pteOf d' v = m.pteOf d' v := by
  unfold Mem.pteOf
  rw [pde_setWord hi (by omega) d' _]
  by_cases he : d' = d ∧ v / 1024 = i
  · obtain ⟨rfl, rfl⟩ := he
    have hframe : frame (4096 * f + 7) = f := by
      unfold frame
      omega
    rw [if_pos (⟨rfl, rfl⟩ : d' = d' ∧ _), if_neg hno, hframe, Mem.setWord,
      Mem.page_setPage_of_ne _ hfd, hz, word_zero, ite_self]
  · rw [if_neg he]
    split
    · rename_i ht
      rw [Mem.setWord, Mem.page_setPage_of_ne _ (htable ht)]
    · rfl

section Link

variable (h : Wf l m own) (hf : own f = .held) (hz : m.page f = fun _ => 0) (hd : own d = .dir)
  (hi : i < 1024) (hno : ¬Present (m.pde d i))
include h hf hi

theorem pde_link (d' i' : Nat) : (m.setWord d i (4096 * f + 7)).pde d' i' =
    if d' = d ∧ i' = i then 4096 * f + 7 else m.pde d' i' := by
  have hrange := h.listed.range f (by rw [hf]; exact nofun)
  exact pde_setWord hi (by omega) d' i'

include hz hd hno

theorem pteOf_link (d' v : Nat) (hd' : own d' = .dir) :
    (m.setWord d i (4096 * f + 7)).pteOf d' v = m.pteOf d' v := by
  have hrange := h.listed.range f (by rw [hf]; exact nofun)
  refine pteOf_setWord_zero hi (by omega) (fun e => ?_) hz hno fun ht e => ?_
  · rw [e, hd] at hf
    cases hf
  · have hown := h.tables.own_table hd' ht
    rw [e, hd] at hown
    cases hown

/-- **A table is hung into a directory.** -/
theorem Wf.link : Wf l (m.setWord d i (4096 * f + 7)) (Function.update own f (.table d i)) where
  listed := h.listed.set (by rw [hf]; exact nofun) (by rw [hf]; exact nofun) nofun
  tables := by
    have hpde := pde_link (d := d) h hf hi
    have hpte := pteOf_link h hf hz hd hi hno
    have hdir : ∀ g, Function.update own f (.table d i) g = .dir ↔ own g = .dir := fun g => by
      rcases eq_or_ne g f with rfl | hg
      · rw [Function.update_self, hf]
        exact ⟨nofun, nofun⟩
      · rw [Function.update_of_ne hg]
    have hframe : frame (4096 * f + 7) = f := by
      unfold frame
      omega
    have hpresent : Present (4096 * f + 7) := by
      unfold Present
      omega
    refine ⟨fun d' i' g => ?_, fun d' v g => ?_, fun d' v hd' => ?_⟩
    · rw [hdir]
      by_cases he : d' = d ∧ i' = i
      · obtain ⟨rfl, rfl⟩ := he
        rw [hpde d' i', if_pos ⟨rfl, rfl⟩, hframe]
        rcases eq_or_ne g f with rfl | hg
        · rw [Function.update_self]
          exact ⟨fun _ => ⟨hd, hi, hpresent, rfl⟩, fun _ => rfl⟩
        · rw [Function.update_of_ne hg, h.tables.table]
          exact ⟨fun e => absurd e.2.2.1 hno, fun e => absurd e.2.2.2.symm hg⟩
      · have hold : (own d' = .dir ∧ i' < 1024 ∧
            Present ((m.setWord d i (4096 * f + 7)).pde d' i') ∧
            frame ((m.setWord d i (4096 * f + 7)).pde d' i') = g) ↔ own g = .table d' i' := by
          rw [h.tables.table]
          exact and_congr_right fun hd' => by rw [hpde d' i', if_neg he]
        rw [hold]
        rcases eq_or_ne g f with rfl | hg
        · rw [Function.update_self, hf]
          refine ⟨fun e => ?_, nofun⟩
          cases e
          exact absurd ⟨rfl, rfl⟩ he
        · rw [Function.update_of_ne hg]
    · have hold : (own d' = .dir ∧ v < 2 ^ 19 ∧
          Present ((m.setWord d i (4096 * f + 7)).pteOf d' v) ∧
          frame ((m.setWord d i (4096 * f + 7)).pteOf d' v) = g) ↔ own g = .page d' v := by
        rw [h.tables.page]
        exact and_congr_right fun hd' => by rw [hpte d' v hd']
      rw [hdir, hold]
      rcases eq_or_ne g f with rfl | hg
      · rw [Function.update_self, hf]
        exact ⟨nofun, nofun⟩
      · rw [Function.update_of_ne hg]
    · have hd'' := (hdir d').mp hd'
      rw [hpte d' v hd'']
      exact h.tables.kernel d' v hd''

end Link

/-! ## 5. Entries -/

/-- Entry `v` of a directory that has a table for it is written. -/
def Mem.setPte (m : Mem) (d v w : Nat) : Mem :=
  m.setWord (frame (m.pde d (v / 1024))) (v % 1024) w

/-- **One entry changes, and no other**, where the table is no directory and is nobody else's
table. -/
theorem pteOf_setWord {d' u : Nat} (ht : m.HasTable d v) (hw : w < 2 ^ 32)
    (hdir : d' ≠ frame (m.pde d (v / 1024)))
    (hinj : m.HasTable d' u → frame (m.pde d' (u / 1024)) = frame (m.pde d (v / 1024)) →
      d' = d ∧ u / 1024 = v / 1024) :
    (m.setPte d v w).pteOf d' u = if d' = d ∧ u = v then w else m.pteOf d' u := by
  have hpde : (m.setPte d v w).pde d' (u / 1024) = m.pde d' (u / 1024) := pde_setPage_of_ne _ hdir
  unfold Mem.pteOf
  rw [hpde]
  by_cases ht' : Present (m.pde d' (u / 1024))
  · rw [if_pos ht', if_pos ht']
    by_cases he : frame (m.pde d' (u / 1024)) = frame (m.pde d (v / 1024))
    · -- the same table: then it is the same directory, and the index decides
      obtain ⟨rfl, hidx⟩ := hinj ht' he
      rw [he, Mem.setPte, Mem.setWord, Mem.page_setPage_self]
      by_cases hj : u % 1024 = v % 1024
      · rw [hj, word_setWord_self _ (by omega) hw, if_pos ⟨rfl, by omega⟩]
      · rw [word_setWord_of_ne _ (by omega) hj, if_neg fun e => hj (by rw [e.2])]
    · rw [Mem.setPte, Mem.setWord, Mem.page_setPage_of_ne _ he,
        if_neg fun e => he (by rw [e.1, e.2])]
  · rw [if_neg ht', if_neg ht', if_neg]
    rintro ⟨rfl, rfl⟩
    exact ht' ht

section Entry

variable (h : Wf l m own) (hd : own d = .dir) (ht : m.HasTable d v)
include h hd ht

theorem pde_setPte {d' : Nat} (hd' : own d' = .dir) : (m.setPte d v w).pde d' i = m.pde d' i := by
  refine pde_setPage_of_ne _ fun e => ?_
  have := h.tables.own_table hd ht
  rw [← e, hd'] at this
  cases this

theorem pteOf_setPte (hw : w < 2 ^ 32) {d' u : Nat} (hd' : own d' = .dir) :
    (m.setPte d v w).pteOf d' u = if d' = d ∧ u = v then w else m.pteOf d' u := by
  have hown := h.tables.own_table hd ht
  refine pteOf_setWord ht hw (fun e => ?_) fun ht' he => ?_
  · rw [← e, hd'] at hown
    cases hown
  · have hown' := h.tables.own_table hd' ht'
    rw [he, hown, Owner.table.injEq] at hown'
    exact ⟨hown'.1.symm, hown'.2.symm⟩

theorem hasTable_setPte {d' u : Nat} (hd' : own d' = .dir) :
    (m.setPte d v w).HasTable d' u ↔ m.HasTable d' u := by
  unfold Mem.HasTable
  rw [pde_setPte h hd ht hd']

/-- The other pages are as they were. -/
theorem page_setPte (hf : ¬(own f).IsTable) : (m.setPte d v w).page f = m.page f := by
  refine Mem.page_setPage_of_ne _ fun e => hf ?_
  rw [e, h.tables.own_table hd ht]
  trivial

/-- An entry is written, and the record changes with it. -/
theorem Wf.setPte (hw : w < 2 ^ 32) (hl : Listed l m.free own')
    (hown : ∀ g o, (∀ u, o ≠ .page d u) → ¬o.Plain → (own' g = o ↔ own g = o))
    (hpage : ∀ g u, own' g = .page d u ↔
      if u = v then v < 2 ^ 19 ∧ Present w ∧ frame w = g else own g = .page d u)
    (hkernel : 2 ^ 19 ≤ v → Present w → ¬User w) : Wf l (m.setPte d v w) own' where
  listed := hl
  tables := by
    have hpte := @pteOf_setPte l m own d v w h hd ht hw
    have hdir : ∀ g, own' g = .dir ↔ own g = .dir := fun g => hown g _ nofun id
    refine ⟨fun d' i g => ?_, fun d' u g => ?_, fun d' u hd' hlo hhi => ?_⟩
    · rw [hown g (.table d' i) nofun id, h.tables.table, hdir]
      exact and_congr_right fun hd' => by rw [pde_setPte h hd ht hd']
    · have hold : ∀ hd' : own d' = .dir, ¬(d' = d ∧ u = v) →
          ((u < 2 ^ 19 ∧ Present ((m.setPte d v w).pteOf d' u) ∧
            frame ((m.setPte d v w).pteOf d' u) = g) ↔ own g = .page d' u) := fun hd' he => by
        rw [hpte hd', if_neg he, h.tables.page]
        exact ⟨fun e => ⟨hd', e⟩, And.right⟩
      rw [hdir]
      rcases eq_or_ne d' d with rfl | hne
      · rw [hpage]
        rcases eq_or_ne u v with rfl | hu
        · rw [if_pos rfl, hpte hd, if_pos ⟨rfl, rfl⟩]
          exact ⟨fun e => ⟨hd, e⟩, And.right⟩
        · rw [if_neg hu, ← hold hd fun e => hu e.2]
          exact ⟨fun e => ⟨hd, e⟩, And.right⟩
      · rw [hown g (.page d' u) (fun u' e => hne (by cases e; rfl)) id]
        refine ⟨fun e => ?_, fun e => (hold e.1 fun e' => hne e'.1).mp e.2⟩
        have hd' := ((h.tables.page d' u g).mp e).1
        exact ⟨hd', (hold hd' fun e' => hne e'.1).mpr e⟩
    · have hd'' := (hdir d').mp hd'
      rw [hpte hd'']
      split
      · rename_i he
        obtain ⟨rfl, rfl⟩ := he
        exact hkernel hlo
      · exact h.tables.kernel d' u hd'' hlo hhi

/-- **A page is mapped for the user.** -/
theorem Wf.mapUser (hw : w < 2 ^ 32) (hv : v < 2 ^ 19) (hno : ¬Present (m.pteOf d v))
    (hf : own f = .held) (hp : Present w) (hfw : frame w = f) :
    Wf l (m.setPte d v w) (Function.update own f (.page d v)) := by
  refine h.setPte hd ht hw (h.listed.set (by rw [hf]; exact nofun) (by rw [hf]; exact nofun) nofun)
    (fun g o ho hplain => ?_) (fun g u => ?_) fun hge => absurd hge (by omega)
  · rcases eq_or_ne g f with rfl | hg
    · rw [Function.update_self, hf]
      exact ⟨fun e => absurd e.symm (ho v), fun e => absurd (e ▸ trivial) hplain⟩
    · rw [Function.update_of_ne hg]
  · rcases eq_or_ne g f with rfl | hg
    · rw [Function.update_self, hf]
      rcases eq_or_ne u v with rfl | hu
      · rw [if_pos rfl]
        exact ⟨fun _ => ⟨hv, hp, hfw⟩, fun _ => rfl⟩
      · rw [if_neg hu]
        exact ⟨fun e => absurd (by cases e; rfl) hu, nofun⟩
    · rw [Function.update_of_ne hg]
      split
      · rename_i hu
        subst hu
        rw [h.tables.page]
        exact ⟨fun e => absurd e.2.2.1 hno, fun e => absurd (e.2.2.symm.trans hfw) hg⟩
      · rfl

/-- **A page is mapped for the kernel.** -/
theorem Wf.mapKernel (hw : w < 2 ^ 32) (hv : 2 ^ 19 ≤ v) (hu : ¬User w) :
    Wf l (m.setPte d v w) own := by
  refine h.setPte hd ht hw h.listed (fun _ _ _ _ => Iff.rfl) (fun g u => ?_) fun _ _ => hu
  split
  · rename_i e
    subst e
    refine ⟨fun e => ?_, fun e => absurd e.1 (by omega)⟩
    have := ((h.tables.page d u g).mp e).2.1
    omega
  · rfl

/-- **A page is unmapped.** -/
theorem Wf.unmap (hf : own f = .page d v) : Wf l (m.setPte d v 0) (Function.update own f .held) := by
  obtain ⟨-, hv, hp, hfr⟩ := (h.tables.page d v f).mp hf
  refine h.setPte hd ht (by decide)
    (h.listed.set (by rw [hf]; exact nofun) (by rw [hf]; exact nofun) nofun)
    (fun g o ho hplain => ?_) (fun g u => ?_) fun hge => absurd hge (by omega)
  · rcases eq_or_ne g f with rfl | hg
    · rw [Function.update_self, hf]
      exact ⟨fun e => absurd (e ▸ trivial) hplain, fun e => absurd e.symm (ho v)⟩
    · rw [Function.update_of_ne hg]
  · rcases eq_or_ne g f with rfl | hg
    · rw [Function.update_self]
      split
      · exact ⟨nofun, fun e => absurd e.2.1 not_present_zero⟩
      · rename_i hu
        rw [hf]
        exact ⟨nofun, fun e => absurd (by cases e; rfl) hu⟩
    · rw [Function.update_of_ne hg]
      split
      · rename_i hu
        subst hu
        rw [h.tables.page]
        exact ⟨fun e => absurd (e.2.2.2.symm.trans hfr) hg, fun e => absurd e.2.1 not_present_zero⟩
      · rfl

/-- The flags of an entry change. -/
theorem Wf.reflag (hw : w < 2 ^ 32) (hv : v < 2 ^ 19)
    (hp : Present w ↔ Present (m.pteOf d v)) (hfr : frame w = frame (m.pteOf d v)) :
    Wf l (m.setPte d v w) own := by
  refine h.setPte hd ht hw h.listed (fun _ _ _ _ => Iff.rfl) (fun g u => ?_)
    fun hge => absurd hge (by omega)
  split
  · rename_i e
    subst e
    rw [h.tables.page, hp, hfr]
    exact ⟨And.right, fun e => ⟨hd, e⟩⟩
  · rfl

end Entry

/-! ## 6. A directory is given up -/

theorem ne_of_dir {g : Nat} {o : Owner} (hd : own d = .dir) (hg : own g = o) (ho : o ≠ .dir) :
    g ≠ d := by
  rintro rfl
  exact ho (hg.symm.trans hd)

/-- The directory and its tables are held, to be freed one by one. -/
def retire (own : Nat → Owner) (d g : Nat) : Owner :=
  if g = d then .held
  else
    match own g with
    | .table d' i => if d' = d then .held else .table d' i
    | o => o

theorem retire_of_ne {g : Nat} (hg : g ≠ d) (ht : ∀ i, own g ≠ .table d i) :
    retire own d g = own g := by
  unfold retire
  rw [if_neg hg]
  split
  · rename_i d' i he
    rw [if_neg fun e => ht i (by rw [he, e]), he]
  · rfl

theorem retire_table {g : Nat} (hg : own g = .table d i) : retire own d g = .held := by
  unfold retire
  split
  · rfl
  · simp only [hg, if_true]

theorem retire_self : retire own d d = .held := if_pos rfl

theorem retire_eq_iff {g : Nat} (hd : own d = .dir) (o : Owner) (ho : o ≠ .held) :
    retire own d g = o ↔ own g = o ∧ g ≠ d ∧ ∀ i, o ≠ .table d i := by
  rcases eq_or_ne g d with rfl | hg
  · rw [retire_self]
    exact ⟨fun e => absurd e.symm ho, fun e => absurd rfl e.2.1⟩
  · by_cases ht : ∃ i, own g = .table d i
    · obtain ⟨i, ht⟩ := ht
      rw [retire_table ht, ht]
      exact ⟨fun e => absurd e.symm ho, fun e => absurd e.1.symm (e.2.2 i)⟩
    · have ht' : ∀ i, own g ≠ .table d i := fun i e => ht ⟨i, e⟩
      rw [retire_of_ne hg ht']
      exact ⟨fun e => ⟨e, hg, fun i => e ▸ ht' i⟩, And.left⟩

/-- **A directory that maps nothing below KERNBASE is given up.** -/
theorem Wf.retire (h : Wf l m own) (hd : own d = .dir)
    (hnone : ∀ v, v < 2 ^ 19 → ¬Present (m.pteOf d v)) : Wf l m (retire own d) where
  listed := by
    refine ⟨h.listed.nodup, fun g => ?_, fun g hg => h.listed.range g fun e => hg ?_⟩
    · rw [h.listed.free, retire_eq_iff hd .free nofun]
      exact ⟨fun e => ⟨e, ne_of_dir hd e nofun, nofun⟩, And.left⟩
    · exact (retire_eq_iff hd .outside nofun).mpr ⟨e, ne_of_dir hd e nofun, nofun⟩
  tables := by
    have hdir : ∀ g, Vm.retire own d g = .dir ↔ own g = .dir ∧ g ≠ d := fun g => by
      rw [retire_eq_iff hd .dir nofun]
      exact ⟨fun e => ⟨e.1, e.2.1⟩, fun e => ⟨e.1, e.2, nofun⟩⟩
    refine ⟨fun d' i g => ?_, fun d' v g => ?_, fun d' v hd' => ?_⟩
    · rw [hdir, retire_eq_iff hd (.table d' i) nofun, h.tables.table]
      refine ⟨fun ⟨e, _, hne⟩ => ⟨⟨e.1, fun he => hne i (by rw [he])⟩, e.2⟩,
        fun ⟨⟨e, hne⟩, e'⟩ => ⟨⟨e, e'⟩, ?_, fun j he => hne (by cases he; rfl)⟩⟩
      exact ne_of_dir hd ((h.tables.table d' i g).mpr ⟨e, e'⟩) nofun
    · rw [hdir, retire_eq_iff hd (.page d' v) nofun, h.tables.page]
      refine ⟨fun ⟨e, _, _⟩ => ⟨⟨e.1, fun he => hnone v e.2.1 (he ▸ e.2.2.1)⟩, e.2⟩,
        fun ⟨⟨e, _⟩, e'⟩ => ⟨⟨e, e'⟩, ?_, nofun⟩⟩
      exact ne_of_dir hd ((h.tables.page d' v g).mpr ⟨e, e'⟩) nofun
    · exact h.tables.kernel d' v ((hdir d').mp hd').1

/-! ## 7. The smallest example -/

/-- Memory full of zeros. -/
def blankMem (free : List Nat) : Mem := ⟨fun _ _ => 0, free, 0⟩

/-- One directory, that maps nothing, and some free pages. -/
def blankOwn (d : Nat) (free : List Nat) (f : Nat) : Owner :=
  if f = d then .dir else if f ∈ free then .free else .outside

theorem wf_blank (l : Layout) {free : List Nat} (hnodup : free.Nodup) (hd : d ∉ free)
    (hrange : ∀ f ∈ d :: free, l.first ≤ f ∧ f < 57344) :
    Wf l (blankMem free) (blankOwn d free) where
  listed := by
    refine ⟨hnodup, fun f => ?_, fun f hf => hrange f ?_⟩
    · unfold blankOwn
      split
      · rename_i e
        exact ⟨fun hm => absurd (e ▸ hm) hd, nofun⟩
      · split
        · exact ⟨fun _ => rfl, fun _ => ‹_›⟩
        · exact ⟨fun hm => absurd hm ‹_›, nofun⟩
    · unfold blankOwn at hf
      split at hf
      · rename_i e
        exact List.mem_cons.mpr (.inl e)
      · split at hf
        · exact List.mem_cons_of_mem _ ‹_›
        · exact absurd rfl hf
  tables := by
    have hpde : ∀ d i, ¬Present ((blankMem free).pde d i) := fun d i => by
      rw [Mem.pde, show (blankMem free).page d = fun _ => 0 from rfl, word_zero]
      exact not_present_zero
    have hpte : ∀ d v, ¬Present ((blankMem free).pteOf d v) := fun d v => by
      rw [pteOf_zero rfl]
      exact not_present_zero
    have hplain : ∀ f o, ¬Owner.Plain o → o ≠ .dir → blankOwn d free f ≠ o := fun f o ho hne e => by
      unfold blankOwn at e
      split at e
      · exact hne e.symm
      · split at e <;> exact ho (e ▸ trivial)
    exact ⟨fun _ _ f => ⟨fun e => absurd e (hplain f _ id nofun), fun e => absurd e.2.2.1 (hpde _ _)⟩,
      fun _ _ f => ⟨fun e => absurd e (hplain f _ id nofun), fun e => absurd e.2.2.1 (hpte _ _)⟩,
      fun _ _ _ _ _ hp => absurd hp (hpte _ _)⟩

end

end Xv6.Vm
