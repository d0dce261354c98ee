/-
# One buffer for a sector, one process for a buffer

What the cache keeps, over any run: the pointers make ONE circle through all the buffers, no sector
has two of them, and what `bread` has given to a process stays its own, busy and for the same
sector, until that process's `brelse`.

`bget` decides in one section under `bcache.lock`: when its first loop has come round without
finding the sector, no buffer has it, and the second loop gives it to a buffer before anybody else
looks.  A process that slept searches again from the start, so what it saw before it slept does not
matter.  That both loops come round at all is the circle (`Sentinel.walk_next`).
-/
import Xv6.Bio.Bcache

namespace Xv6.Bio

open Xv6.Sentinel

variable {ρ : Type} [DecidableEq ρ]

namespace Bcache

/-! ## 1. The invariant -/

/-- **The representation invariant.** -/
structure Represents (s : Bcache ρ) : Prop where
  /-- one circular doubly linked list, with every buffer in it exactly once -/
  circle : ∃ l, s.links.Circle l ∧ ∀ b, b ∈ l
  /-- one buffer for a sector of a device -/
  unique : ∀ b c, (s.buf b).dev ≠ -1 → (s.buf b).dev = (s.buf c).dev →
    (s.buf b).sector = (s.buf c).sector → b = c
  /-- a buffer that was given out is busy and belongs to the sector that was asked for -/
  given : ∀ p, ∀ h ∈ s.held p,
    (s.buf h.buf).busy = true ∧ (s.buf h.buf).dev = h.dev ∧ (s.buf h.buf).sector = h.sector
  /-- it is held by one process, -/
  sole : ∀ p q, ∀ h ∈ s.held p, ∀ g ∈ s.held q, h.buf = g.buf → p = q ∧ h = g
  /-- once, -/
  once : ∀ p, (s.held p).Nodup
  /-- and a busy buffer was given out -/
  busy : ∀ b, (s.buf b).busy = true → ∃ p, ∃ h ∈ s.held p, h.buf = b

/-- The invariant together with where the processes are: one that works on a buffer holds it. -/
structure Ok (s : Bcache ρ) : Prop extends s.Represents where
  pc : ∀ p b, (s.pc p).buf = some b → ∃ h ∈ s.held p, h.buf = b
  halted : ∀ e, s.halted = some e → e ≠ .bwrite ∧ e ≠ .brelse ∧ e ≠ .notBusy

variable {s t : Bcache ρ} {p : ρ} {b : Fin NBUF} {dev sector : Uint} {f : Buf → Buf}

omit [DecidableEq ρ] in
/-- What leaves the list, who holds what, and the identity of the buffers alone. -/
theorem Ok.frame (hs : s.Ok) (hlinks : t.links = s.links) (hheld : t.held = s.held)
    (hbuf : ∀ c, (t.buf c).busy = (s.buf c).busy ∧ (t.buf c).dev = (s.buf c).dev ∧
      (t.buf c).sector = (s.buf c).sector)
    (hpc : ∀ q c, (t.pc q).buf = some c → ∃ h ∈ s.held q, h.buf = c)
    (hhalted : ∀ e, t.halted = some e → e ≠ .bwrite ∧ e ≠ .brelse ∧ e ≠ .notBusy) : t.Ok where
  circle := hlinks ▸ hs.circle
  unique := fun b c => by
    rw [(hbuf b).2.1, (hbuf b).2.2, (hbuf c).2.1, (hbuf c).2.2]
    exact hs.unique b c
  given := fun p h hh => by
    rw [(hbuf h.buf).1, (hbuf h.buf).2.1, (hbuf h.buf).2.2]
    exact hs.given p h (hheld ▸ hh)
  sole := fun p q h hh g hg => hs.sole p q h (hheld ▸ hh) g (hheld ▸ hg)
  once := fun p => hheld ▸ hs.once p
  busy := fun b hb => by
    rw [hheld]
    exact hs.busy b ((hbuf b).1 ▸ hb)
  pc := fun q c hc => by
    rw [hheld]
    exact hpc q c hc
  halted := hhalted

theorem ok_goto (hs : s.Ok) {pc : Pc} (hpc : ∀ c, pc.buf = some c → ∃ h ∈ s.held p, h.buf = c) :
    (s.goto p pc).Ok := by
  refine hs.frame rfl rfl (fun _ => ⟨rfl, rfl, rfl⟩) (fun q c hc => ?_) hs.halted
  rcases eq_or_ne q p with rfl | hq
  · exact hpc c (by simpa [goto] using hc)
  · exact hs.pc q c (by simpa [goto, Function.update_of_ne hq] using hc)

omit [DecidableEq ρ] in
theorem ok_panic (hs : s.Ok) {e : Panic} (he : e ≠ .bwrite ∧ e ≠ .brelse ∧ e ≠ .notBusy) :
    (s.panic e).Ok :=
  hs.frame rfl rfl (fun _ => ⟨rfl, rfl, rfl⟩) hs.pc fun _ h => by cases h; exact he

omit [DecidableEq ρ] in
theorem ok_wakeup (hs : s.Ok) : (s.wakeup b).Ok :=
  hs.frame rfl rfl (fun _ => ⟨rfl, rfl, rfl⟩)
    (fun q c hc => hs.pc q c (by simpa [wakeup] using hc)) hs.halted

omit [DecidableEq ρ] in
/-- `B_VALID` and `B_DIRTY` may change. -/
theorem ok_set (hs : s.Ok) (hf : ∀ x, (f x).busy = x.busy ∧ (f x).dev = x.dev ∧
    (f x).sector = x.sector) : (s.set b f).Ok := by
  refine hs.frame rfl rfl (fun c => ?_) hs.pc hs.halted
  rcases eq_or_ne c b with rfl | hc
  · simpa [set] using hf (s.buf c)
  · simp [set, Function.update_of_ne hc]

omit [DecidableEq ρ] in
theorem ok_enqueue (hs : s.Ok) (queue : List (Fin NBUF)) :
    ({ s with idequeue := queue } : Bcache ρ).Ok :=
  hs.frame rfl rfl (fun _ => ⟨rfl, rfl, rfl⟩) hs.pc hs.halted

/-! ## 2. Giving a buffer out -/

/-- **A free buffer is given out**, for a sector that no other buffer has. -/
theorem ok_give (hs : s.Ok) (hfree : (s.buf b).busy = false)
    (hf : (f (s.buf b)).busy = true ∧ (f (s.buf b)).dev = dev ∧ (f (s.buf b)).sector = sector)
    (hother : ∀ c, c ≠ b → dev ≠ -1 → ¬((s.buf c).dev = dev ∧ (s.buf c).sector = sector)) :
    (s.give p b dev sector f).Ok := by
  have hself : (s.give p b dev sector f).buf b = f (s.buf b) := Function.update_self ..
  have helse : ∀ c, c ≠ b → (s.give p b dev sector f).buf c = s.buf c := fun c hc =>
    Function.update_of_ne hc ..
  -- nobody has the buffer, which was free
  have hnew : ∀ q, ∀ h ∈ s.held q, h.buf ≠ b := by
    intro q h hh e
    have hbusy := (hs.given q h hh).1
    rw [e, hfree] at hbusy
    cases hbusy
  have hmem : ∀ q h, h ∈ (s.give p b dev sector f).held q ↔
      (q = p ∧ h = ⟨b, dev, sector⟩) ∨ h ∈ s.held q := by
    intro q h
    rcases eq_or_ne q p with rfl | hq
    · simp [give, set, goto]
    · simp [give, set, goto, hq]
  refine ⟨⟨hs.circle, ?_, ?_, ?_, ?_, ?_⟩, ?_, hs.halted⟩
  · intro c d
    rcases eq_or_ne c b with hc | hc <;> rcases eq_or_ne d b with hd | hd
    · exact fun _ _ _ => hc.trans hd.symm
    · rw [hc, hself, helse d hd, hf.2.1, hf.2.2]
      exact fun hdev h₁ h₂ => absurd ⟨h₁.symm, h₂.symm⟩ (hother d hd hdev)
    · rw [hd, hself, helse c hc, hf.2.1, hf.2.2]
      exact fun hdev h₁ h₂ => absurd ⟨h₁, h₂⟩ (hother c hc (h₁ ▸ hdev))
    · rw [helse c hc, helse d hd]
      exact hs.unique c d
  · intro q h hh
    rcases (hmem q h).mp hh with ⟨-, rfl⟩ | hh'
    · rw [hself]
      exact hf
    · rw [helse _ (hnew q h hh')]
      exact hs.given q h hh'
  · intro q r h hh g hg hbuf
    rcases (hmem q h).mp hh with ⟨rfl, rfl⟩ | hh' <;> rcases (hmem r g).mp hg with ⟨rfl, rfl⟩ | hg'
    · exact ⟨rfl, rfl⟩
    · exact absurd hbuf.symm (hnew r g hg')
    · exact absurd hbuf (hnew q h hh')
    · exact hs.sole q r h hh' g hg' hbuf
  · intro q
    rcases eq_or_ne q p with rfl | hq
    · have hnin : (⟨b, dev, sector⟩ : Handle) ∉ s.held q := fun hh => hnew q _ hh rfl
      simpa [give, set, goto] using ⟨hnin, hs.once q⟩
    · simpa [give, set, goto, Function.update_of_ne hq] using hs.once q
  · intro c hc
    rcases eq_or_ne c b with rfl | hcb
    · exact ⟨p, _, (hmem p _).mpr (.inl ⟨rfl, rfl⟩), rfl⟩
    · rw [helse c hcb] at hc
      obtain ⟨q, h, hh, rfl⟩ := hs.busy c hc
      exact ⟨q, h, (hmem q h).mpr (.inr hh), rfl⟩
  · intro q c hc
    rcases eq_or_ne q p with rfl | hq
    · have : b = c := by simpa [give, set, goto, Pc.buf] using hc
      exact ⟨_, (hmem q _).mpr (.inl ⟨rfl, rfl⟩), this⟩
    · have hc' : (s.pc q).buf = some c := by
        simpa [give, set, goto, Function.update_of_ne hq] using hc
      obtain ⟨h, hh, rfl⟩ := hs.pc q c hc'
      exact ⟨h, (hmem q h).mpr (.inr hh), rfl⟩

omit [DecidableEq ρ] in
/-- The first loop of `bget` comes to an end: with the sector's buffer, or because there is none. -/
theorem Represents.search (hs : s.Represents) (found : Fin NBUF → Bool) :
    (∃ b, walk found s.links.next (NBUF + 1) (s.links.next none) = some (some b) ∧
      found b = true) ∨
    (walk found s.links.next (NBUF + 1) (s.links.next none) = some none ∧
      ∀ b, found b = false) := by
  obtain ⟨l, hl, hall⟩ := hs.circle
  have hlen : l.length < NBUF + 1 := Nat.lt_succ_of_le (by simpa using hl.2.length_le_card)
  rw [walk_next found hl hlen]
  cases hfind : l.find? found with
  | some b => exact .inl ⟨b, rfl, List.find?_some hfind⟩
  | none => exact .inr ⟨rfl, fun b => by simpa using List.find?_eq_none.mp hfind b (hall b)⟩

omit [DecidableEq ρ] in
/-- So does the second one. -/
theorem Represents.search_back (hs : s.Represents) (found : Fin NBUF → Bool) :
    (∃ b, walk found s.links.prev (NBUF + 1) (s.links.prev none) = some (some b) ∧
      found b = true) ∨
    walk found s.links.prev (NBUF + 1) (s.links.prev none) = some none := by
  obtain ⟨l, hl, -⟩ := hs.circle
  have hlen : l.length < NBUF + 1 := Nat.lt_succ_of_le (by simpa using hl.2.length_le_card)
  rw [walk_prev found hl hlen]
  cases hfind : l.reverse.find? found with
  | some b => exact .inl ⟨b, rfl, List.find?_some hfind⟩
  | none => exact .inr rfl

/-- What `bget` can do: sleep on the sector's buffer, give it out, take over a buffer that is
neither busy nor dirty when no buffer has the sector, or panic. -/
inductive BgetEnds (s : Bcache ρ) (p : ρ) (dev sector : Uint) : Bcache ρ → Prop
  | sleeps (b : Fin NBUF) : BgetEnds s p dev sector (s.goto p (.bgetSleep b dev sector))
  | cached (b : Fin NBUF) (hdev : (s.buf b).dev = dev) (hsector : (s.buf b).sector = sector)
      (hfree : (s.buf b).busy = false) :
      BgetEnds s p dev sector (s.give p b dev sector fun x => { x with busy := true })
  | recycled (b : Fin NBUF) (hnone : ∀ c, ¬((s.buf c).dev = dev ∧ (s.buf c).sector = sector))
      (hfree : (s.buf b).busy = false) (hclean : (s.buf b).dirty = false) :
      BgetEnds s p dev sector (s.give p b dev sector fun _ => ⟨true, false, false, dev, sector⟩)
  | panics : BgetEnds s p dev sector (s.panic .noBuffers)

/-- **`bget` returns, sleeps or panics**: its loops do not go on for ever. -/
theorem Represents.bget (hs : s.Represents) (p : ρ) (dev sector : Uint) :
    ∃ t, s.bget p dev sector = some t ∧ BgetEnds s p dev sector t := by
  unfold Bcache.bget
  rcases hs.search fun b => (s.buf b).holds dev sector with ⟨b, hwalk, hb⟩ | ⟨hwalk, hnone⟩
  · rw [hwalk]
    have hb' : (s.buf b).dev = dev ∧ (s.buf b).sector = sector := by simpa [Buf.holds] using hb
    cases hbusy : (s.buf b).busy with
    | true => exact ⟨_, if_pos hbusy, .sleeps b⟩
    | false =>
      refine ⟨_, if_neg ?_, .cached b hb'.1 hb'.2 hbusy⟩
      simp [hbusy]
  · rw [hwalk]
    have hnone' : ∀ c, ¬((s.buf c).dev = dev ∧ (s.buf c).sector = sector) := fun c => by
      simpa [Buf.holds] using hnone c
    rcases hs.search_back fun b => !(s.buf b).busy && !(s.buf b).dirty with ⟨b, hback, hb⟩ | hback
    · rw [hback]
      have hb' : (s.buf b).busy = false ∧ (s.buf b).dirty = false := by simpa using hb
      exact ⟨_, rfl, .recycled b hnone' hb'.1 hb'.2⟩
    · rw [hback]
      exact ⟨_, rfl, .panics⟩

theorem ok_bget (hs : s.Ok) (ht : BgetEnds s p dev sector t) : t.Ok := by
  cases ht with
  | sleeps b => exact ok_goto hs nofun
  | cached b hdev hsector hfree =>
    refine ok_give hs hfree ⟨rfl, hdev, hsector⟩ fun c hc hne hsame => hc ?_
    exact hs.unique c b (hsame.1.symm ▸ hne) (hsame.1.trans hdev.symm)
      (hsame.2.trans hsector.symm)
  | recycled b hnone hfree hclean =>
    exact ok_give hs hfree ⟨rfl, rfl, rfl⟩ fun c _ _ => hnone c
  | panics => exact ok_panic hs (by decide)

/-! ## 3. Giving a buffer back -/

/-- **`brelse`**, by the process that holds the buffer. -/
theorem ok_brelse (hs : s.Ok) {h₀ : Handle} (hh₀ : h₀ ∈ s.held p) : (s.brelse p h₀.buf).Ok := by
  have hbusy := (hs.given p h₀ hh₀).1
  have heq : s.brelse p h₀.buf = { s with
      buf := Function.update s.buf h₀.buf { s.buf h₀.buf with busy := false }
      links := (s.links.unlink h₀.buf).push h₀.buf
      pc := Function.update (fun q => (s.pc q).wake h₀.buf) p .out
      held := Function.update s.held p ((s.held p).filter fun h => h.buf ≠ h₀.buf) } := by
    unfold brelse
    rw [if_neg (by simp [hbusy])]
    rfl
  have hmem : ∀ q h, h ∈ (s.brelse p h₀.buf).held q ↔ h ∈ s.held q ∧ h.buf ≠ h₀.buf := by
    intro q h
    rw [heq]
    rcases eq_or_ne q p with rfl | hq
    · simp
    · simp only [Function.update_of_ne hq]
      refine ⟨fun hh => ⟨hh, fun e => hq ?_⟩, And.left⟩
      exact (hs.sole q p h hh h₀ hh₀ e).1
  have hident : ∀ c, ((s.brelse p h₀.buf).buf c).dev = (s.buf c).dev ∧
      ((s.brelse p h₀.buf).buf c).sector = (s.buf c).sector := by
    intro c
    rw [heq]
    rcases eq_or_ne c h₀.buf with rfl | hc
    · simp
    · simp [Function.update_of_ne hc]
  have hkept : ∀ c, c ≠ h₀.buf → ((s.brelse p h₀.buf).buf c).busy = (s.buf c).busy := by
    intro c hc
    rw [heq]
    simp [Function.update_of_ne hc]
  refine ⟨⟨?_, ?_, ?_, ?_, ?_, ?_⟩, ?_, ?_⟩
  · obtain ⟨l, hl, hall⟩ := hs.circle
    rw [heq]
    have hout : h₀.buf ∉ l.erase h₀.buf := hl.2.not_mem_erase
    refine ⟨_, Links.circle_push (Links.circle_unlink hl (hall _)) hout, fun c => ?_⟩
    rcases eq_or_ne c h₀.buf with rfl | hc
    · exact List.mem_cons_self
    · exact List.mem_cons_of_mem _ ((List.mem_erase_of_ne hc).mpr (hall c))
  · intro c d
    rw [(hident c).1, (hident c).2, (hident d).1, (hident d).2]
    exact hs.unique c d
  · intro q h hh
    obtain ⟨hh, hne⟩ := (hmem q h).mp hh
    rw [hkept _ hne, (hident _).1, (hident _).2]
    exact hs.given q h hh
  · intro q r h hh g hg
    exact hs.sole q r h ((hmem q h).mp hh).1 g ((hmem r g).mp hg).1
  · intro q
    rw [heq]
    rcases eq_or_ne q p with rfl | hq
    · simpa using (hs.once q).filter _
    · simpa [Function.update_of_ne hq] using hs.once q
  · intro c hc
    have hne : c ≠ h₀.buf := by
      rintro rfl
      rw [heq] at hc
      simp at hc
    rw [hkept c hne] at hc
    obtain ⟨q, h, hh, rfl⟩ := hs.busy c hc
    exact ⟨q, h, (hmem q h).mpr ⟨hh, hne⟩, rfl⟩
  · intro q c hc
    rcases eq_or_ne q p with rfl | hq
    · rw [heq] at hc
      simp [Pc.buf] at hc
    · have hc' : (s.pc q).buf = some c := by
        rw [heq] at hc
        simpa [Function.update_of_ne hq] using hc
      obtain ⟨h, hh, rfl⟩ := hs.pc q c hc'
      -- another process cannot be at work on the buffer that is given back
      refine ⟨h, (hmem q h).mpr ⟨hh, fun e => hq ?_⟩, rfl⟩
      exact (hs.sole q p h hh h₀ hh₀ e).1
  · rw [heq]
    exact hs.halted

/-! ## 4. Every step -/

omit [DecidableEq ρ] in
theorem ok_ideintr (hs : s.Ok) : s.ideintr.Ok := by
  unfold ideintr
  split
  · exact hs
  · exact ok_wakeup (ok_set (ok_enqueue hs _) fun _ => ⟨rfl, rfl, rfl⟩)

theorem ok_iderwLoop (hs : s.Ok) (hb : ∃ h ∈ s.held p, h.buf = b) : (s.iderwLoop p b).Ok := by
  unfold iderwLoop
  split
  · exact ok_goto hs nofun
  · exact ok_goto hs fun c hc => by cases hc; exact hb

omit [DecidableEq ρ] in
/-- A buffer that some process holds passes the check of `B_BUSY`. -/
theorem Represents.is_busy (hs : s.Represents) (hb : ∃ h ∈ s.held p, h.buf = b) :
    ¬(s.buf b).busy = false := by
  obtain ⟨h, hh, rfl⟩ := hb
  simp [(hs.given p h hh).1]

theorem ok_iderw (hs : s.Ok) (hb : ∃ h ∈ s.held p, h.buf = b) : (s.iderw p b).Ok := by
  unfold iderw
  rw [if_neg (hs.is_busy hb)]
  split
  · exact ok_panic hs (by decide)
  · split
    · exact ok_panic hs (by decide)
    · exact ok_iderwLoop (ok_enqueue hs _) hb

theorem ok_bwrite (hs : s.Ok) (hb : ∃ h ∈ s.held p, h.buf = b) : (s.bwrite p b).Ok := by
  unfold bwrite
  rw [if_neg (hs.is_busy hb)]
  have hset : (s.set b fun x => { x with dirty := true }).Ok := ok_set hs fun _ => ⟨rfl, rfl, rfl⟩
  exact ok_goto hset fun c hc => by cases hc; exact hb

theorem ok_bread (hs : s.Ok) (hb : ∃ h ∈ s.held p, h.buf = b) : (s.bread p b).Ok := by
  unfold bread
  split
  · exact ok_goto hs nofun
  · exact ok_goto hs fun c hc => by cases hc; exact hb

omit [DecidableEq ρ] in
theorem holds_of_canUse (h : s.canUse p b = true) : ∃ h ∈ s.held p, h.buf = b := by
  simpa using (Bool.and_eq_true_iff.mp h).2

/-- **One step.** -/
theorem ok_step (hs : s.Ok) {a : Act ρ} (ht : s.step a = some t) : t.Ok := by
  unfold step at ht
  split at ht
  · cases ht
  · cases a with
    | bread p dev sector =>
      obtain ⟨-, ht⟩ := Option.ite_none_right_eq_some.mp ht
      cases ht
      exact ok_goto hs nofun
    | bwrite p b =>
      obtain ⟨hc, ht⟩ := Option.ite_none_right_eq_some.mp ht
      cases ht
      exact ok_bwrite hs (holds_of_canUse hc)
    | logWrite p b =>
      obtain ⟨-, ht⟩ := Option.ite_none_right_eq_some.mp ht
      cases ht
      exact ok_set hs fun _ => ⟨rfl, rfl, rfl⟩
    | brelse p b =>
      obtain ⟨hc, ht⟩ := Option.ite_none_right_eq_some.mp ht
      cases ht
      exact ok_goto hs fun c hc' => by cases hc'; exact holds_of_canUse hc
    | ideintr =>
      cases ht
      exact ok_ideintr hs
    | move p =>
      simp only [move] at ht
      have hpc := hs.pc p
      cases hp : s.pc p with
      | out => simp [hp] at ht
      | bgetSleep b dev sector => simp [hp] at ht
      | iderwSleep b => simp [hp] at ht
      | bget dev sector =>
        obtain ⟨t', ht', hends⟩ := hs.bget p dev sector
        simp only [hp] at ht
        cases ht'.symm.trans ht
        exact ok_bget hs hends
      | bread b =>
        simp only [hp] at ht
        cases ht
        exact ok_bread hs (hpc b (by rw [hp]; rfl))
      | iderw b =>
        simp only [hp] at ht
        cases ht
        exact ok_iderw hs (hpc b (by rw [hp]; rfl))
      | iderwLoop b =>
        simp only [hp] at ht
        cases ht
        exact ok_iderwLoop hs (hpc b (by rw [hp]; rfl))
      | brelse b =>
        simp only [hp] at ht
        cases ht
        obtain ⟨h, hh, rfl⟩ := hpc b (by rw [hp]; rfl)
        exact ok_brelse hs hh

omit [DecidableEq ρ] in
/-- After `binit`: ten pushes onto an empty list. -/
theorem ok_binit (havedisk1 : Bool) : (binit havedisk1 : Bcache ρ).Ok where
  circle := by
    have hcircle := Links.circle_foldl_push (l := List.finRange NBUF) Links.circle_empty
      (by simpa using List.nodup_finRange NBUF)
    exact ⟨_, hcircle, fun b => by simp⟩
  unique := fun _ _ h => absurd rfl h
  given := nofun
  sole := nofun
  once := fun _ => List.nodup_nil
  busy := nofun
  pc := nofun
  halted := nofun

/-! ## 5. Who gets what, step by step -/

/-- **What one step may do to the buffers in use.** -/
structure Stays (s : Bcache ρ) (a : Act ρ) (t : Bcache ρ) : Prop where
  /-- a buffer that is busy or dirty is not given to another sector -/
  ident : ∀ b, (s.buf b).busy = true ∨ (s.buf b).dirty = true →
    (t.buf b).dev = (s.buf b).dev ∧ (t.buf b).sector = (s.buf b).sector
  /-- a process keeps what it has until its `brelse` -/
  kept : ∀ p, ∀ h ∈ s.held p, h ∈ t.held p ∨ (a = .move p ∧ s.pc p = .brelse h.buf)
  /-- and gets what it asked `bread` for -/
  asked : ∀ p, ∀ h ∈ t.held p, h ∈ s.held p ∨ (a = .move p ∧ s.pc p = .bget h.dev h.sector)

variable {a : Act ρ}

omit [DecidableEq ρ] in
theorem Stays.same (hheld : t.held = s.held)
    (hident : ∀ b, (t.buf b).dev = (s.buf b).dev ∧ (t.buf b).sector = (s.buf b).sector) :
    Stays s a t :=
  ⟨fun b _ => hident b, fun _ _ hh => .inl (hheld ▸ hh), fun _ _ hh => .inl (hheld ▸ hh)⟩

/-- The flags of one buffer change. -/
theorem ident_update (g : Fin NBUF → Buf) (x : Buf)
    (hx : x.dev = (g b).dev ∧ x.sector = (g b).sector) (c : Fin NBUF) :
    (Function.update g b x c).dev = (g c).dev ∧
      (Function.update g b x c).sector = (g c).sector := by
  rcases eq_or_ne c b with rfl | hc
  · simpa using hx
  · simp [Function.update_of_ne hc]

theorem stays_give (hp : s.pc p = .bget dev sector) (hfree : (s.buf b).busy = false)
    (hclean : (s.buf b).dirty = false ∨
      ((f (s.buf b)).dev = (s.buf b).dev ∧ (f (s.buf b)).sector = (s.buf b).sector)) :
    Stays s (.move p) (s.give p b dev sector f) where
  ident := fun c hc => by
    rcases eq_or_ne c b with rfl | hcb
    · simp only [give, set, goto, Function.update_self]
      rcases hclean with hclean | hsame
      · rw [hfree, hclean] at hc
        simp at hc
      · exact hsame
    · simp [give, set, goto, Function.update_of_ne hcb]
  kept := fun q h hh => by
    refine .inl ?_
    rcases eq_or_ne q p with rfl | hq
    · simp [give, set, goto, hh]
    · simpa [give, set, goto, Function.update_of_ne hq] using hh
  asked := fun q h hh => by
    rcases eq_or_ne q p with rfl | hq
    · have hh' : h = ⟨b, dev, sector⟩ ∨ h ∈ s.held q := by simpa [give, set, goto] using hh
      rcases hh' with rfl | hh'
      · exact .inr ⟨rfl, hp⟩
      · exact .inl hh'
    · exact .inl (by simpa [give, set, goto, Function.update_of_ne hq] using hh)

theorem stays_bget (hp : s.pc p = .bget dev sector) (ht : BgetEnds s p dev sector t) :
    Stays s (.move p) t := by
  cases ht with
  | sleeps b => exact .same rfl fun _ => ⟨rfl, rfl⟩
  | cached b hdev hsector hfree => exact stays_give hp hfree (.inr ⟨rfl, rfl⟩)
  | recycled b hnone hfree hclean => exact stays_give hp hfree (.inl hclean)
  | panics => exact .same rfl fun _ => ⟨rfl, rfl⟩

theorem stays_brelse (hp : s.pc p = .brelse b) : Stays s (.move p) (s.brelse p b) := by
  unfold brelse
  split
  · exact .same rfl fun _ => ⟨rfl, rfl⟩
  · have hident := ident_update s.buf { s.buf b with busy := false } (b := b) ⟨rfl, rfl⟩
    refine ⟨fun c _ => hident c, fun q h hh => ?_, fun q h hh => ?_⟩
    · rcases eq_or_ne q p with rfl | hq
      · by_cases hb : h.buf = b
        · exact .inr ⟨rfl, hb ▸ hp⟩
        · exact .inl (by simp [set, goto, wakeup, hh, hb])
      · exact .inl (by simpa [set, goto, wakeup, Function.update_of_ne hq] using hh)
    · refine .inl ?_
      rcases eq_or_ne q p with rfl | hq
      · have hh' : h ∈ s.held q ∧ h.buf ≠ b := by simpa [set, goto, wakeup] using hh
        exact hh'.1
      · simpa [set, goto, wakeup, Function.update_of_ne hq] using hh

theorem stays_iderwLoop : Stays s a (s.iderwLoop p b) := by
  unfold iderwLoop
  split <;> exact .same rfl fun _ => ⟨rfl, rfl⟩

theorem stays_iderw : Stays s a (s.iderw p b) := by
  unfold iderw
  split
  · exact .same rfl fun _ => ⟨rfl, rfl⟩
  · split
    · exact .same rfl fun _ => ⟨rfl, rfl⟩
    · split
      · exact .same rfl fun _ => ⟨rfl, rfl⟩
      · have h : Stays { s with idequeue := s.idequeue ++ [b] } a _ :=
          stays_iderwLoop (p := p) (b := b)
        exact ⟨h.ident, h.kept, h.asked⟩

theorem stays_step (hs : s.Represents) (ht : s.step a = some t) : Stays s a t := by
  unfold step at ht
  split at ht
  · cases ht
  · cases a with
    | bread p dev sector =>
      obtain ⟨-, ht⟩ := Option.ite_none_right_eq_some.mp ht
      cases ht
      exact .same rfl fun _ => ⟨rfl, rfl⟩
    | bwrite p b =>
      obtain ⟨-, ht⟩ := Option.ite_none_right_eq_some.mp ht
      cases ht
      unfold bwrite
      split
      · exact .same rfl fun _ => ⟨rfl, rfl⟩
      · exact .same rfl (ident_update s.buf _ ⟨rfl, rfl⟩)
    | logWrite p b =>
      obtain ⟨-, ht⟩ := Option.ite_none_right_eq_some.mp ht
      cases ht
      exact .same rfl (ident_update s.buf _ ⟨rfl, rfl⟩)
    | brelse p b =>
      obtain ⟨-, ht⟩ := Option.ite_none_right_eq_some.mp ht
      cases ht
      exact .same rfl fun _ => ⟨rfl, rfl⟩
    | ideintr =>
      cases ht
      unfold ideintr
      split
      · exact .same rfl fun _ => ⟨rfl, rfl⟩
      · exact .same rfl (ident_update s.buf _ ⟨rfl, rfl⟩)
    | move p =>
      simp only [move] at ht
      cases hp : s.pc p with
      | out => simp [hp] at ht
      | bgetSleep b dev sector => simp [hp] at ht
      | iderwSleep b => simp [hp] at ht
      | bget dev sector =>
        obtain ⟨t', ht', hends⟩ := hs.bget p dev sector
        simp only [hp] at ht
        cases ht'.symm.trans ht
        exact stays_bget hp hends
      | bread b =>
        simp only [hp] at ht
        cases ht
        unfold bread
        split <;> exact .same rfl fun _ => ⟨rfl, rfl⟩
      | iderw b =>
        simp only [hp] at ht
        cases ht
        exact stays_iderw
      | iderwLoop b =>
        simp only [hp] at ht
        cases ht
        exact stays_iderwLoop
      | brelse b =>
        simp only [hp] at ht
        cases ht
        exact stays_brelse hp

/-- Every state that a run reaches. -/
theorem ok_run (havedisk1 : Bool) (acts : List (Act ρ))
    (hs : Runs.run step (binit havedisk1) acts = some s) : s.Ok :=
  Runs.run_always (P := Ok) (fun _ _ _ h ht => ok_step h ht) acts _ _ (ok_binit havedisk1) hs

end Bcache

/-- **The cache over whole runs.**  In every state that any processes reach, the representation
invariant holds, and no step from there gives a busy or dirty buffer to another sector, takes a
buffer from the process that holds it other than by its `brelse`, or gives a process a buffer that
it did not ask for. -/
theorem bcache_represents (havedisk1 : Bool) (acts : List (Act ρ)) (s : Bcache ρ)
    (hs : Runs.run Bcache.step (.binit havedisk1) acts = some s) :
    s.Represents ∧ ∀ a t, s.step a = some t → s.Stays a t :=
  have hok := Bcache.ok_run havedisk1 acts hs
  ⟨hok.toRepresents, fun _ _ => Bcache.stays_step hok.toRepresents⟩

/-- Two processes want one sector.  The second sleeps on the first one's buffer; the first reads
the sector from the disk, marks the buffer dirty and gives it back; the second, woken, searches
again.  Meanwhile the first has another buffer taken over. -/
def twoForOneSector : List (Act Bool) :=
  [.bread true 1 5, .move true, .move true, .move true, .bread false 1 5, .move false, .ideintr,
    .move true, .move false, .logWrite true 0, .brelse true 0, .move true, .move false,
    .bread true 1 6, .move true]

theorem represents_twoForOneSector :
    ∃ s, Runs.run Bcache.step (.binit true) twoForOneSector = some s ∧
      s.held false = [⟨0, 1, 5⟩] ∧ s.held true = [⟨1, 1, 6⟩] ∧ (s.buf 0).dirty = true ∧
      s.Represents ∧ ∀ a t, s.step a = some t → s.Stays a t := by
  have hrun : (Runs.run Bcache.step (.binit true) twoForOneSector).any (fun s =>
      s.held false = [⟨0, 1, 5⟩] ∧ s.held true = [⟨1, 1, 6⟩] ∧ (s.buf 0).dirty = true) = true := by
    decide +kernel
  obtain ⟨s, hs, hheld⟩ := (Option.any_eq_true _ _).mp hrun
  obtain ⟨h₁, h₂, h₃⟩ := of_decide_eq_true hheld
  exact ⟨s, hs, h₁, h₂, h₃, bcache_represents true twoForOneSector s hs⟩

end Xv6.Bio
