/-
# grep (grep.c)

`grep` reads its input into `buf`, at most as much as fits behind the unfinished line that is there
already, finds the lines in it with `strchr`, matches each of them, and moves what is left behind the
last newline to the front.

`strchr` stops at a NUL, and nothing puts one behind the bytes that were read: what stops it is a byte
of `buf` that has never been written, or a newline of an earlier line that did not match.  The model
keeps `buf` as it is, STALE bytes included, and fails on an access outside it.  Input arrives as the
reads happen to split it: a read gets as many bytes as it is told, if they are there and fit.

**What goes wrong.**  A newline among the stale bytes ends a line that is not there.  A read without
any newline leaves `p == buf`, and the unfinished line is thrown away.  And if the stale bytes reach
the end of `buf`, so does `strchr`, and goes on.  On an input read in pieces that never lead to any of
this (`Tidy`) the output is right for every pattern; and if it is right for the pattern that matches
everything, then no piece did (`grep_prints_matching_lines_iff`).
-/
import Xv6.Fuel
import Xv6.User.Regex

namespace Xv6.Grep

open Xv6.Bytes Xv6.Fuel

/-! ## 1. The code -/

/-- The bytes from the start of `buf` on. -/
abbrev Buf := Nat → Byte

/-- `sizeof(buf)` -/
def bufSize : Nat := 1024

/-- `'\n'` -/
def newline : Byte := 10

/-- The loop of `strchr` where `n` bytes are left in `buf`; `none` if it reads behind its end. -/
def strchrLoop (buf : Buf) (c : Byte) : (n s : Nat) → Option (Option Nat)
  | 0, _ => none
  | n + 1, s =>
    if buf s = 0 then some none
    else if buf s = c then some (some s)
    else strchrLoop buf c n (s + 1)

/-- `strchr(s, c)` -/
def strchr (buf : Buf) (s : Nat) (c : Byte) : Option (Option Nat) :=
  strchrLoop buf c (bufSize - s) s

/-- `n` bytes from `p` on. -/
def bytes (buf : Buf) (p n : Nat) : List Byte := (List.range' p n).map buf

/-- The string at `p`. -/
def string (buf : Buf) (p : Nat) : List Byte := (bytes buf p (bufSize - p)).takeWhile (· ≠ 0)

/-- `memmove(buf + d, buf + s, n)` -/
def memmove (buf : Buf) (d s : Nat) : (n : Nat) → Buf
  | 0 => buf
  | n + 1 => memmove (Function.update buf d (buf s)) (d + 1) (s + 1) n

/-- What `read` does to `buf`. -/
def store (buf : Buf) (m : Nat) (piece : List Byte) : Buf := fun i =>
  if m ≤ i then (piece[i - m]?).getD (buf i) else buf i

/-- `buf`, and what has been written to the standard output. -/
structure St where
  buf : Buf
  out : List Byte

/-- `while((q = strchr(p, '\n')) != 0)`: the `p` it ends with. -/
def lineLoop (pattern : List Byte) : (fuel p : Nat) → St → Out Unit St Nat
  | 0, _, _ => .unfinished
  | fuel + 1, p, s =>
    match strchr s.buf p newline with
    | none => .fail ()
    | some none => .ok p s
    | some (some q) =>
      let cut := Function.update s.buf q 0
      if matchText pattern (string cut p) then
        let whole := Function.update cut q newline
        lineLoop pattern fuel (q + 1) ⟨whole, s.out ++ bytes whole p (q + 1 - p)⟩
      else lineLoop pattern fuel (q + 1) ⟨cut, s.out⟩

/-- `while((n = read(fd, buf+m, sizeof(buf)-m)) > 0)`.  The list `reads` says how many bytes each read
is given, one if it says nothing. -/
def grepLoop (pattern : List Byte) : (fuel : Nat) → (reads : List Nat) → (input : List Byte) →
    (m : Int) → St → Out Unit St Unit
  | 0, _, _, _, _ => .unfinished
  | fuel + 1, reads, input, m, s =>
    let piece := input.take (min (reads.headD 0 + 1) (bufSize - m).toNat)
    if piece = [] then .ok () s
    -- it would be written before `buf`
    else if m < 0 then .fail ()
    else
      (lineLoop pattern (bufSize + 1) 0 { s with buf := store s.buf m.toNat piece }).bind fun p s =>
      let m := if p = 0 then 0 else m + piece.length
      if m > 0 then
        grepLoop pattern fuel reads.tail (input.drop piece.length) (m - p)
          { s with buf := memmove s.buf 0 p (m - p).toNat }
      else grepLoop pattern fuel reads.tail (input.drop piece.length) m s

/-- `grep(pattern, fd)` of a program that has just started: what it writes. -/
def grep (fuel : Nat) (pattern : List Byte) (reads : List Nat) (input : List Byte) :
    Out Unit Unit (List Byte) :=
  (grepLoop pattern fuel reads input 0 ⟨fun _ => 0, []⟩).bind fun _ s => .ok s.out ()

/-! ## 2. Lines -/

/-- The text that consists of these lines, each with its newline. -/
def text (ls : List (List Byte)) : List Byte := ls.flatMap (· ++ [newline])

/-- The piece that the next read gets, behind an unfinished line `w`. -/
def piece (reads : List Nat) (w input : List Byte) : List Byte :=
  input.take (min (reads.headD 0 + 1) (bufSize - w.length))

/-- **The reads never lead `grep` astray.**  At the start of `buf` there is the unfinished line `w`,
and behind it are the stale bytes `stale`, of all that has been written before.  Every read finishes a
line; no newline is left among the stale bytes behind what it has read; and all of this leaves at
least one byte of `buf` that has never been written. -/
inductive Tidy : (reads : List Nat) → (w stale input : List Byte) → Prop
  | done {reads : List Nat} {w stale : List Byte} : Tidy reads w stale []
  | round {reads : List Nat} {w stale input w' : List Byte} {ls : List (List Byte)}
      (hin : input ≠ [])
      (hfinishes : newline ∈ piece reads w input)
      (hstale : newline ∉ stale.drop (piece reads w input).length)
      (hroom : (w ++ piece reads w input ++ stale.drop (piece reads w input).length).length < bufSize)
      (hsplit : w ++ piece reads w input = text ls ++ w')
      (hls : ∀ l ∈ ls, newline ∉ l) (hw' : newline ∉ w')
      (hnext : Tidy reads.tail w'
        ((w ++ piece reads w input ++ stale.drop (piece reads w input).length).drop w'.length)
        (input.drop (piece reads w input).length)) :
      Tidy reads w stale input

@[simp] theorem text_nil : text [] = [] := rfl

@[simp] theorem text_cons (l : List Byte) (ls : List (List Byte)) :
    text (l :: ls) = l ++ newline :: text ls := by
  rw [text, List.flatMap_cons, List.append_assoc]
  rfl

/-- Every string is some lines and a rest without a newline. -/
theorem exists_lines (xs : List Byte) : ∃ ls w, xs = text ls ++ w ∧ (∀ l ∈ ls, newline ∉ l) ∧
    newline ∉ w := by
  induction xs with
  | nil => exact ⟨[], [], rfl, nofun, nofun⟩
  | cons x xs ih =>
    obtain ⟨ls, w, rfl, hls, hw⟩ := ih
    by_cases hx : x = newline
    · refine ⟨[] :: ls, w, by simp [hx], ?_, hw⟩
      exact List.forall_mem_cons.mpr ⟨nofun, hls⟩
    · cases ls with
      | nil => exact ⟨[], x :: w, rfl, nofun, by simp [hw, Ne.symm hx]⟩
      | cons l ls =>
        rw [List.forall_mem_cons] at hls
        refine ⟨(x :: l) :: ls, w, by simp, ?_, hw⟩
        exact List.forall_mem_cons.mpr ⟨by simp [hls.1, Ne.symm hx], hls.2⟩

theorem text_append (ls₁ ls₂ : List (List Byte)) : text (ls₁ ++ ls₂) = text ls₁ ++ text ls₂ :=
  List.flatMap_append

theorem exists_first_line {xs : List Byte} (h : newline ∈ xs) :
    ∃ l more, xs = l ++ newline :: more ∧ newline ∉ l := by
  obtain ⟨ls, w, rfl, hls, hw⟩ := exists_lines xs
  cases ls with
  | nil => exact absurd h hw
  | cons l ls => exact ⟨l, text ls ++ w, by simp, hls l List.mem_cons_self⟩

/-- Where the first newline is. -/
theorem append_newline_inj {a b x y : List Byte} (ha : newline ∉ a) (hb : newline ∉ b)
    (h : a ++ newline :: x = b ++ newline :: y) : a = b ∧ x = y := by
  have htake {a x : List Byte} (ha : newline ∉ a) :
      (a ++ newline :: x).takeWhile (· ≠ newline) = a := by
    rw [List.takeWhile_append_of_pos fun c hc => ?_]
    · simp
    · rw [decide_eq_true_eq]
      rintro rfl
      exact ha hc
  have hab : a = b := by rw [← htake ha, h, htake hb]
  subst hab
  exact ⟨rfl, by simpa using h⟩

theorem newline_mem_text {ls : List (List Byte)} (h : ls ≠ []) : newline ∈ text ls := by
  cases ls with
  | nil => exact absurd rfl h
  | cons l ls => simp

/-! ## 3. Searching -/

/-- A buffer that starts with `xs`, and in which nothing else has been written. -/
def held (xs : List Byte) : Buf := fun j => (xs[j]?).getD 0

variable {buf : Buf} {pattern l w xs more : List Byte} {ls : List (List Byte)} {p n s : Nat} {c : Byte}

theorem bytes_succ (buf : Buf) (p n : Nat) : bytes buf p (n + 1) = buf p :: bytes buf (p + 1) n := by
  rw [bytes, List.range'_succ, List.map_cons]
  rfl

theorem length_bytes (buf : Buf) (p n : Nat) : (bytes buf p n).length = n := by
  rw [bytes, List.length_map, List.length_range']

theorem bytes_congr {buf' : Buf} (h : ∀ j, p ≤ j → j < p + n → buf j = buf' j) :
    bytes buf p n = bytes buf' p n :=
  List.map_congr_left fun j hj => by
    rw [List.mem_range'_1] at hj
    exact h j hj.1 hj.2

/-- Bytes without the one it looks for, and without a NUL, are passed over. -/
theorem strchrLoop_skip (hl : bytes buf s l.length = l) (h0 : 0 ∉ l) (hc : c ∉ l)
    (hn : l.length ≤ n) : strchrLoop buf c n s = strchrLoop buf c (n - l.length) (s + l.length) := by
  induction l generalizing n s with
  | nil => rfl
  | cons x l ih =>
    obtain ⟨n, rfl⟩ : ∃ k, n = k + 1 := ⟨n - 1, by rw [List.length_cons] at hn; omega⟩
    rw [List.length_cons, bytes_succ, List.cons.injEq] at hl
    rw [List.mem_cons, not_or] at h0 hc
    have hlen : l.length ≤ n := by simpa using hn
    rw [strchrLoop, hl.1, if_neg (Ne.symm h0.1), if_neg (Ne.symm hc.1), ih hl.2 h0.2 hc.2 hlen,
      List.length_cons, Nat.add_sub_add_right, Nat.add_assoc, Nat.add_comm 1]

theorem strchr_skip (hl : bytes buf p l.length = l) (h0 : 0 ∉ l) (hc : newline ∉ l)
    (hp : p + l.length ≤ bufSize) :
    strchr buf p newline = strchrLoop buf newline (bufSize - (p + l.length)) (p + l.length) := by
  rw [strchr, strchrLoop_skip hl h0 hc (by omega), Nat.sub_sub]

/-- The newline behind `l`. -/
theorem strchr_newline (hl : bytes buf p l.length = l) (h0 : 0 ∉ l) (hc : newline ∉ l)
    (hp : p + l.length < bufSize) (hq : buf (p + l.length) = newline) :
    strchr buf p newline = some (some (p + l.length)) := by
  obtain ⟨k, hk⟩ : ∃ k, bufSize - (p + l.length) = k + 1 := ⟨bufSize - (p + l.length) - 1, by omega⟩
  rw [strchr_skip hl h0 hc hp.le, hk, strchrLoop, hq, if_neg (by decide), if_pos rfl]

/-- The NUL behind `l`. -/
theorem strchr_nul (hl : bytes buf p l.length = l) (h0 : 0 ∉ l) (hc : newline ∉ l)
    (hp : p + l.length < bufSize) (hq : buf (p + l.length) = 0) :
    strchr buf p newline = some none := by
  obtain ⟨k, hk⟩ : ∃ k, bufSize - (p + l.length) = k + 1 := ⟨bufSize - (p + l.length) - 1, by omega⟩
  rw [strchr_skip hl h0 hc hp.le, hk, strchrLoop, hq, if_pos rfl]

/-- The end of `buf` behind `l`. -/
theorem strchr_end (hl : bytes buf p l.length = l) (h0 : 0 ∉ l) (hc : newline ∉ l)
    (hp : p + l.length = bufSize) : strchr buf p newline = none := by
  rw [strchr_skip hl h0 hc hp.le, hp, Nat.sub_self]
  rfl

/-- What follows position `p`, byte by byte. -/
theorem held_of_drop (h : xs.drop p = l ++ c :: more) : held xs (p + l.length) = c := by
  have hat : (xs.drop p)[l.length]? = some c := by rw [h]; simp
  rw [List.getElem?_drop] at hat
  rw [held, hat]
  rfl

theorem drop_of_drop (h : xs.drop p = l ++ more) : xs.drop (p + l.length) = more := by
  rw [← List.drop_drop, h, List.drop_left]

theorem length_of_drop (h : xs.drop p = l ++ c :: more) : p + l.length < xs.length := by
  have hlen := congrArg List.length h
  rw [List.length_drop, List.length_append, List.length_cons] at hlen
  omega

theorem bytes_of_held (hbuf : ∀ j ≥ p, buf j = held xs j) (h : xs.drop p = l ++ more) :
    bytes buf p l.length = l := by
  induction l generalizing p with
  | nil => rfl
  | cons x l ih =>
    have hx : buf p = x := by
      rw [hbuf p (Nat.le_refl p)]
      exact held_of_drop (l := []) h
    have hrest : xs.drop (p + 1) = l ++ more := drop_of_drop (l := [x]) h
    rw [List.length_cons, bytes_succ, hx, ih (fun j hj => hbuf j (by omega)) hrest]

/-- The string that ends with a NUL behind `l`. -/
theorem string_eq (hl : bytes buf p l.length = l) (h0 : 0 ∉ l) (hp : p + l.length < bufSize)
    (hq : buf (p + l.length) = 0) : string buf p = l := by
  obtain ⟨k, hk⟩ : ∃ k, bufSize - p = l.length + (k + 1) := ⟨bufSize - p - l.length - 1, by omega⟩
  have happ : bytes buf p (bufSize - p) = l ++ 0 :: bytes buf (p + l.length + 1) k := by
    rw [hk, bytes, ← List.range'_append_1, List.map_append]
    change bytes buf p l.length ++ bytes buf (p + l.length) (k + 1) = _
    rw [hl, bytes_succ, hq]
  rw [string, happ, List.takeWhile_append_of_pos fun x hx => ?_]
  · simp
  · rw [decide_eq_true_eq]
    rintro rfl
    exact h0 hx

/-! ## 4. The lines in the buffer -/

/-- The pattern that matches every line. -/
theorem matchText_nil (l : List Byte) : matchText [] l = true := by
  cases l <;> simp [matchText, matchLoop, matchhere]

/-- `buf` holds `xs`, except that newlines of lines that did not match are NULs. -/
def Near (pattern : List Byte) (buf : Buf) (xs : List Byte) : Prop :=
  ∀ j, buf j = held xs j ∨ (pattern ≠ [] ∧ held xs j = newline ∧ buf j = 0)

/-- One line: found, matched, and written if it matches. -/
theorem lineLoop_line (fuel : Nat) (st : St) (h0 : 0 ∉ xs) (hlen : xs.length ≤ bufSize)
    (hbuf : ∀ j ≥ p, st.buf j = held xs j) (hnear : Near pattern st.buf xs)
    (hsplit : xs.drop p = l ++ newline :: more) (hl : newline ∉ l) :
    ∃ b, lineLoop pattern (fuel + 1) p st = lineLoop pattern fuel (p + l.length + 1)
        ⟨b, st.out ++ if matchText pattern l then l ++ [newline] else []⟩ ∧
      (∀ j ≥ p + l.length + 1, b j = held xs j) ∧ Near pattern b xs := by
  have hlt : p + l.length < bufSize := (length_of_drop hsplit).trans_le hlen
  have hl0 : 0 ∉ l := fun hmem => h0 (List.mem_of_mem_drop (hsplit ▸ List.mem_append_left _ hmem))
  have hbytes := bytes_of_held hbuf hsplit
  have hheld : held xs (p + l.length) = newline := held_of_drop hsplit
  have hq : st.buf (p + l.length) = newline := by rw [hbuf _ (by omega), hheld]
  have hcut : string (Function.update st.buf (p + l.length) 0) p = l := by
    refine string_eq ?_ hl0 hlt (Function.update_self ..)
    rw [← hbytes, length_bytes]
    exact bytes_congr fun j _ hj => Function.update_of_ne (by omega) ..
  have hwhole : Function.update (Function.update st.buf (p + l.length) 0) (p + l.length) newline =
      st.buf := by
    rw [Function.update_idem, ← hq, Function.update_eq_self]
  have hline : bytes st.buf p (p + l.length + 1 - p) = l ++ [newline] := by
    rw [show p + l.length + 1 - p = (l ++ [newline]).length by rw [List.length_append]; simp; omega]
    exact bytes_of_held hbuf (by rw [hsplit, List.append_assoc]; rfl)
  rw [lineLoop, strchr_newline hbytes hl0 hl hlt hq]
  simp only [hcut, hwhole, hline]
  cases hmatch : matchText pattern l with
  | true => exact ⟨st.buf, rfl, fun j hj => hbuf j (by omega), hnear⟩
  | false =>
    refine ⟨Function.update st.buf (p + l.length) 0, by simp, fun j hj => ?_, fun j => ?_⟩
    · rw [Function.update_of_ne (by omega)]
      exact hbuf j (by omega)
    · rcases eq_or_ne j (p + l.length) with rfl | hne
      · refine .inr ⟨?_, hheld, Function.update_self ..⟩
        rintro rfl
        rw [matchText_nil] at hmatch
        exact nomatch hmatch
      · rw [Function.update_of_ne hne]
        exact hnear j

/-- **The lines in the buffer**, one after the other. -/
theorem lineLoop_lines (pattern : List Byte) (fuel : Nat) (st : St) (h0 : 0 ∉ xs) (hlen : xs.length ≤ bufSize)
    (hbuf : ∀ j ≥ p, st.buf j = held xs j) (hnear : Near pattern st.buf xs)
    (hsplit : xs.drop p = text ls ++ w) (hls : ∀ l ∈ ls, newline ∉ l) :
    ∃ b, lineLoop pattern (fuel + ls.length) p st = lineLoop pattern fuel (p + (text ls).length)
        ⟨b, st.out ++ text (ls.filter (matchText pattern))⟩ ∧
      (∀ j ≥ p + (text ls).length, b j = held xs j) ∧ Near pattern b xs := by
  induction ls generalizing p st with
  | nil => exact ⟨st.buf, by simp, hbuf, hnear⟩
  | cons l ls ih =>
    rw [List.forall_mem_cons] at hls
    rw [text_cons, List.append_assoc, List.cons_append] at hsplit
    obtain ⟨b, hb, hbuf', hnear'⟩ :=
      lineLoop_line (fuel + ls.length) st h0 hlen hbuf hnear hsplit hls.1
    have hrest : xs.drop (p + l.length + 1) = text ls ++ w := by
      rw [← List.drop_drop, drop_of_drop hsplit]
      rfl
    obtain ⟨b', hb', hbuf'', hnear''⟩ := ih ⟨b, _⟩ hbuf' hnear' hrest hls.2
    have hend : p + (text (l :: ls)).length = p + l.length + 1 + (text ls).length := by
      rw [text_cons, List.length_append, List.length_cons]
      omega
    refine ⟨b', ?_, hend ▸ hbuf'', hnear''⟩
    rw [List.length_cons, ← Nat.add_assoc, hb, hb', hend, List.append_assoc]
    congr 3
    rw [List.filter_cons]
    cases matchText pattern l <;> simp

theorem length_le_length_text (ls : List (List Byte)) : ls.length ≤ (text ls).length := by
  induction ls with
  | nil => exact Nat.le_refl 0
  | cons l ls ih =>
    rw [text_cons, List.length_append, List.length_cons, List.length_cons]
    omega

/-- `buf` is gone through from its start up to what is behind the last newline, whatever comes then. -/
theorem lineLoop_held (pattern out : List Byte) (h0 : 0 ∉ xs) (hlen : xs.length ≤ bufSize)
    (hsplit : xs = text ls ++ w) (hls : ∀ l ∈ ls, newline ∉ l) :
    ∃ fuel b, lineLoop pattern (bufSize + 1) 0 ⟨held xs, out⟩ =
        lineLoop pattern (fuel + 1) (text ls).length
          ⟨b, out ++ text (ls.filter (matchText pattern))⟩ ∧
      (∀ j ≥ (text ls).length, b j = held xs j) ∧ Near pattern b xs := by
  have hfuel : ls.length ≤ bufSize := by
    have hle := length_le_length_text ls
    rw [hsplit, List.length_append] at hlen
    omega
  obtain ⟨b, hb, hbuf, hnear⟩ := lineLoop_lines (p := 0) pattern
    (bufSize - ls.length + 1) ⟨held xs, out⟩ h0 hlen (fun _ _ => rfl) (fun _ => .inl rfl) hsplit hls
  rw [Nat.zero_add] at hb hbuf
  refine ⟨bufSize - ls.length, b, ?_, hbuf, hnear⟩
  rw [← hb]
  congr 1
  omega

/-- **There is a NUL behind it**, where `buf` has not been written. -/
theorem lineLoop_ok (pattern out : List Byte) (h0 : 0 ∉ xs) (hlen : xs.length < bufSize)
    (hsplit : xs = text ls ++ w) (hls : ∀ l ∈ ls, newline ∉ l) (hw : newline ∉ w) :
    ∃ b, lineLoop pattern (bufSize + 1) 0 ⟨held xs, out⟩ =
        .ok (text ls).length ⟨b, out ++ text (ls.filter (matchText pattern))⟩ ∧
      (∀ j ≥ (text ls).length, b j = held xs j) ∧ Near pattern b xs := by
  obtain ⟨fuel, b, hb, hbuf, hnear⟩ := lineLoop_held pattern out h0 hlen.le hsplit hls
  have hend : (text ls).length + w.length = xs.length := by rw [hsplit, List.length_append]
  have hdrop : xs.drop (text ls).length = w ++ [] := by rw [hsplit, List.drop_left, List.append_nil]
  have hw0 : 0 ∉ w := fun hmem => h0 (hsplit ▸ List.mem_append_right _ hmem)
  have hnul : b ((text ls).length + w.length) = 0 := by
    rw [hbuf _ (by omega), hend, held, List.getElem?_eq_none (Nat.le_refl _)]
    rfl
  refine ⟨b, ?_, hbuf, hnear⟩
  rw [hb, lineLoop, strchr_nul (bytes_of_held hbuf hdrop) hw0 hw (by omega) hnul]

/-- **There is none**, if all of `buf` has been written. -/
theorem lineLoop_fail (pattern out : List Byte) (h0 : 0 ∉ xs) (hlen : xs.length = bufSize)
    (hsplit : xs = text ls ++ w) (hls : ∀ l ∈ ls, newline ∉ l) (hw : newline ∉ w) :
    lineLoop pattern (bufSize + 1) 0 ⟨held xs, out⟩ = .fail () := by
  obtain ⟨fuel, b, hb, hbuf, -⟩ := lineLoop_held pattern out h0 hlen.le hsplit hls
  have hend : (text ls).length + w.length = xs.length := by rw [hsplit, List.length_append]
  have hdrop : xs.drop (text ls).length = w ++ [] := by rw [hsplit, List.drop_left, List.append_nil]
  have hw0 : 0 ∉ w := fun hmem => h0 (hsplit ▸ List.mem_append_right _ hmem)
  rw [hb, lineLoop, strchr_end (bytes_of_held hbuf hdrop) hw0 hw (by omega)]

/-! ## 5. One read -/

/-- The move to the front, where the source is behind the destination. -/
theorem memmove_apply : ∀ (n : Nat) (buf : Buf) (d s i : Nat), d ≤ s →
    memmove buf d s n i = if d ≤ i ∧ i < d + n then buf (i - d + s) else buf i
  | 0, buf, d, s, i, _ => by rw [memmove, if_neg (by omega)]
  | n + 1, buf, d, s, i, h => by
    rw [memmove, memmove_apply n _ _ _ _ (by omega)]
    by_cases hfirst : i = d
    · subst hfirst
      rw [if_neg (by omega), if_pos (by omega), Function.update_self, Nat.sub_self, Nat.zero_add]
    · by_cases hin : d ≤ i ∧ i < d + (n + 1)
      · -- what is read has not been overwritten yet
        rw [if_pos (by omega), if_pos hin, Function.update_of_ne (by omega)]
        congr 1
        omega
      · rw [if_neg (by omega), if_neg hin, Function.update_of_ne hfirst]

variable {stale : List Byte}

theorem getElem?_of_held_newline {j : Nat} (h : held xs j = newline) : xs[j]? = some newline := by
  unfold held at h
  cases hat : xs[j]? with
  | none =>
    rw [hat] at h
    exact absurd h (by decide)
  | some x =>
    rw [hat] at h
    exact congrArg some h

/-- A read puts its bytes behind the unfinished line, over stale ones. -/
theorem store_held (w c stale : List Byte) :
    store (held (w ++ stale)) w.length c = held (w ++ c ++ stale.drop c.length) := by
  funext j
  unfold store held
  by_cases hw : w.length ≤ j
  · rw [if_pos hw, List.append_assoc, List.getElem?_append_right hw, List.getElem?_append_right hw]
    by_cases hc : j - w.length < c.length
    · rw [List.getElem?_append_left hc, List.getElem?_eq_getElem hc]
      rfl
    · rw [List.getElem?_eq_none (by omega), List.getElem?_append_right (by omega), List.getElem?_drop,
        show c.length + (j - w.length - c.length) = j - w.length by omega]
      rfl
  · rw [if_neg hw, List.append_assoc, List.getElem?_append_left (by omega),
      List.getElem?_append_left (by omega)]

/-- And so if the newlines that have become NULs are among those. -/
theorem store_near (hnear : Near pattern buf (w ++ stale)) (hw : newline ∉ w) (c : List Byte)
    (hstale : newline ∉ stale.drop c.length) :
    store buf w.length c = held (w ++ c ++ stale.drop c.length) := by
  rw [← store_held]
  funext j
  unfold store
  rcases hnear j with heq | ⟨-, hheld, -⟩
  · rw [heq]
  · -- one of those: neither in the unfinished line nor behind the new bytes
    have hat := getElem?_of_held_newline hheld
    have hwj : w.length ≤ j := by
      by_contra hlt
      rw [List.getElem?_append_left (by omega)] at hat
      exact hw (List.mem_of_getElem? hat)
    have hcj : j - w.length < c.length := by
      by_contra hge
      rw [List.getElem?_append_right hwj] at hat
      refine hstale (List.mem_of_getElem? (i := j - w.length - c.length) ?_)
      rw [List.getElem?_drop, ← hat]
      congr 1
      omega
    rw [if_pos hwj, if_pos hwj, List.getElem?_eq_getElem hcj]
    rfl

/-- The unfinished line is moved to the front, and what was there is stale. -/
theorem near_memmove (pattern : List Byte) {b : Buf} (hsplit : xs = text ls ++ w ++ stale)
    (hbuf : ∀ j ≥ (text ls).length, b j = held xs j) (hnear : Near pattern b xs) :
    Near pattern (memmove b 0 (text ls).length w.length) (w ++ xs.drop w.length) := by
  have hlen : w.length ≤ xs.length := by
    rw [hsplit, List.length_append, List.length_append]
    omega
  intro j
  rw [memmove_apply _ _ _ _ _ (Nat.zero_le _)]
  by_cases hj : j < w.length
  · refine .inl ?_
    rw [if_pos (by omega), Nat.sub_zero, hbuf _ (by omega), held, held,
      List.getElem?_append_left hj, hsplit, List.append_assoc,
      List.getElem?_append_right (by omega), Nat.add_sub_cancel, List.getElem?_append_left hj]
  · have hheld : held (w ++ xs.drop w.length) j = held xs j := by
      rw [held, held, List.getElem?_append_right (by omega), List.getElem?_drop,
        show w.length + (j - w.length) = j by omega]
    rw [if_neg (by omega), hheld]
    exact hnear j

/-! ## 6. The whole input -/

theorem piece_length_le (reads : List Nat) (w input : List Byte) :
    (piece reads w input).length ≤ bufSize - w.length := by
  rw [piece, List.length_take]
  omega

theorem piece_append (reads : List Nat) (w input : List Byte) :
    piece reads w input ++ input.drop (piece reads w input).length = input := by
  unfold piece
  rw [List.length_take]
  conv_rhs => rw [← List.take_append_drop (min (reads.headD 0 + 1) (bufSize - w.length)) input]
  congr 1
  by_cases hle : min (reads.headD 0 + 1) (bufSize - w.length) ≤ input.length
  · rw [Nat.min_eq_left hle]
  · rw [Nat.min_eq_right (by omega), List.drop_of_length_le (Nat.le_refl _),
      List.drop_of_length_le (by omega)]

theorem getLast?_drop {c input : List Byte} (hcut : c ++ input.drop c.length = input)
    (hend : input = [] ∨ input.getLast? = some newline) :
    input.drop c.length = [] ∨ (input.drop c.length).getLast? = some newline := by
  by_cases hnil : input.drop c.length = []
  · exact .inl hnil
  · right
    have hin : input ≠ [] := fun h => hnil (by rw [h, List.drop_nil])
    have hlast := hend.resolve_left hin
    rw [← hcut, List.getLast?_append, Option.or_eq_some_iff] at hlast
    exact hlast.resolve_right fun hr => hnil (List.getLast?_eq_none_iff.mp hr.1)

theorem piece_ne_nil {reads : List Nat} {input : List Byte} (hw : w.length < bufSize)
    (hin : input ≠ []) : piece reads w input ≠ [] := by
  unfold piece
  rw [Ne, List.take_eq_nil_iff, not_or]
  exact ⟨by omega, hin⟩

/-- One round of the loop, behind an unfinished line. -/
theorem grepLoop_round {reads : List Nat} {input : List Byte} (pattern out : List Byte) (fuel : Nat)
    (hne : piece reads w input ≠ []) (hbuf : store buf w.length (piece reads w input) = held xs) :
    grepLoop pattern (fuel + 1) reads input w.length ⟨buf, out⟩ =
      (lineLoop pattern (bufSize + 1) 0 ⟨held xs, out⟩).bind fun p s =>
        if p = 0 then
          grepLoop pattern fuel reads.tail (input.drop (piece reads w input).length) 0 s
        else
          grepLoop pattern fuel reads.tail (input.drop (piece reads w input).length)
            (w.length + (piece reads w input).length - p : Int)
            ⟨memmove s.buf 0 p (w.length + (piece reads w input).length - p : Int).toNat, s.out⟩ := by
  have hpiece : input.take (min (reads.headD 0 + 1) (bufSize - (w.length : Int)).toNat) =
      piece reads w input := by
    rw [piece]
    congr 2
    omega
  have hpos : 0 < (piece reads w input).length := List.length_pos_iff.mpr hne
  rw [grepLoop]
  simp only [hpiece, if_neg hne, Int.toNat_natCast, hbuf]
  rw [if_neg (by omega)]
  congr 1
  funext p s
  by_cases hp : p = 0
  · rw [if_pos hp, if_pos hp, if_neg (by omega)]
  · rw [if_neg hp, if_neg hp, if_pos (by omega)]

/-- A text is taken apart into lines in one way only. -/
theorem eq_append_of_text {ls₁ : List (List Byte)} {z : List Byte} (hls : ∀ l ∈ ls, newline ∉ l)
    (hls₁ : ∀ l ∈ ls₁, newline ∉ l) (h : text ls = text ls₁ ++ z) :
    ∃ ls₂, ls = ls₁ ++ ls₂ ∧ z = text ls₂ := by
  induction ls₁ generalizing ls with
  | nil => exact ⟨ls, rfl, h.symm⟩
  | cons l₁ ls₁ ih =>
    rw [List.forall_mem_cons] at hls₁
    cases ls with
    | nil => simp at h
    | cons l ls =>
      rw [List.forall_mem_cons] at hls
      rw [text_cons, text_cons, List.append_assoc, List.cons_append] at h
      obtain ⟨rfl, hrest⟩ := append_newline_inj hls.1 hls₁.1 h
      obtain ⟨ls₂, rfl, rfl⟩ := ih hls.2 hls₁.2 hrest
      exact ⟨ls₂, rfl, rfl⟩

/-- What `buf` holds after a round, in front and behind. -/
theorem length_next (hlen : w.length ≤ xs.length) : (w ++ xs.drop w.length).length = xs.length := by
  rw [List.length_append, List.length_drop]
  omega

theorem zero_not_mem_next (hw : 0 ∉ w) (h0 : 0 ∉ xs) : 0 ∉ w ++ xs.drop w.length := by
  rw [List.mem_append, not_or]
  exact ⟨hw, fun hmem => h0 (List.mem_of_mem_drop hmem)⟩

/-- **A tidy run prints the matching lines**, of what the unfinished line and the input make up. -/
theorem grepLoop_of_tidy {reads : List Nat} {input : List Byte} (h : Tidy reads w stale input)
    (pattern out : List Byte) (fuel : Nat) (hnear : Near pattern buf (w ++ stale))
    (hw : newline ∉ w) (h0 : 0 ∉ w ++ stale) (hin0 : 0 ∉ input) (hls : ∀ l ∈ ls, newline ∉ l)
    (htext : w ++ input = text ls) (hfuel : input.length < fuel) :
    ∃ b, grepLoop pattern fuel reads input w.length ⟨buf, out⟩ =
      .ok () ⟨b, out ++ text (ls.filter (matchText pattern))⟩ := by
  induction h generalizing buf ls out fuel with
  | @done reads w stale =>
    obtain ⟨fuel, rfl⟩ : ∃ k, fuel = k + 1 := ⟨fuel - 1, by omega⟩
    have hnil : ls = [] := by
      by_contra hne
      rw [List.append_nil] at htext
      exact hw (htext ▸ newline_mem_text hne)
    refine ⟨buf, ?_⟩
    rw [grepLoop, hnil]
    simp
  | @round reads w stale input w' ls₁ hin hfinishes hstale hroom hsplit hls₁ hw' hnext ih =>
    obtain ⟨fuel, rfl⟩ : ∃ k, fuel = k + 1 := ⟨fuel - 1, by omega⟩
    have hcut := piece_append reads w input
    have hne : piece reads w input ≠ [] := List.ne_nil_of_mem hfinishes
    generalize hxs : w ++ piece reads w input ++ stale.drop (piece reads w input).length = xs at *
    have hbuf := (store_near hnear hw (piece reads w input) hstale).trans (congrArg held hxs)
    rw [grepLoop_round pattern out fuel hne hbuf]
    generalize piece reads w input = c at *
    have hlines : xs = text ls₁ ++ (w' ++ stale.drop c.length) := by
      rw [← hxs, hsplit, List.append_assoc]
    have hxs0 : 0 ∉ xs := by
      rw [← hxs]
      simp only [List.mem_append, not_or] at h0 ⊢
      exact ⟨⟨h0.1, fun hmem => hin0 (hcut ▸ List.mem_append_left _ hmem)⟩,
        fun hmem => h0.2 (List.mem_of_mem_drop hmem)⟩
    have hlast : newline ∉ w' ++ stale.drop c.length := by
      rw [List.mem_append, not_or]
      exact ⟨hw', hstale⟩
    obtain ⟨b, hb, hbuf', hnear'⟩ := lineLoop_ok pattern out hxs0 hroom hlines hls₁ hlast
    rw [hb, Out.ok_bind]
    have hlen : w.length + c.length = (text ls₁).length + w'.length := by
      rw [← List.length_append, hsplit, List.length_append]
    have hp : (text ls₁).length ≠ 0 := by
      intro hzero
      rw [List.length_eq_zero_iff] at hzero
      rw [hzero, List.nil_append] at hsplit
      exact hw' (hsplit ▸ List.mem_append_right _ hfinishes)
    have hm : (w.length + c.length - (text ls₁).length : Int) = w'.length := by omega
    rw [if_neg hp, hm, Int.toNat_natCast]
    -- the lines that are still to come
    obtain ⟨ls₂, rfl, htext'⟩ : ∃ ls₂, ls = ls₁ ++ ls₂ ∧ w' ++ input.drop c.length = text ls₂ := by
      refine eq_append_of_text hls hls₁ ?_
      calc text ls = w ++ (c ++ input.drop c.length) := by rw [hcut, htext]
        _ = text ls₁ ++ (w' ++ input.drop c.length) := by
          rw [← List.append_assoc, hsplit, List.append_assoc]
    rw [List.filter_append, text_append, ← List.append_assoc]
    refine ih _ _ (near_memmove pattern (hlines.trans (List.append_assoc ..).symm) hbuf' hnear') hw' ?_ ?_ ?_
      htext' ?_
    · refine zero_not_mem_next (fun hmem => hxs0 ?_) hxs0
      rw [hlines]
      exact List.mem_append_right _ (List.mem_append_left _ hmem)
    · exact fun hmem => hin0 (List.mem_of_mem_drop hmem)
    · exact fun l hl => hls l (List.mem_append_right _ hl)
    · have hpos : 0 < c.length := List.length_pos_iff.mpr hne
      have hin : 0 < input.length := List.length_pos_iff.mpr hin
      rw [List.length_drop]
      omega

/-! ## 7. What goes wrong shows

The pattern that matches every line prints all that `grep` takes for a line. -/

/-- What has been written stays written. -/
theorem lineLoop_out {fuel : Nat} {st st' : St} {q : Nat}
    (h : lineLoop pattern fuel p st = .ok q st') : st.out <+: st'.out := by
  induction fuel generalizing p st with
  | zero => exact nomatch h
  | succ fuel ih =>
    rw [lineLoop] at h
    split at h
    · exact nomatch h
    · cases h
      exact List.prefix_rfl
    · dsimp only at h
      split at h
      · have hrest := ih h
        exact (List.prefix_append _ _).trans hrest
      · have hrest := ih h
        exact hrest

theorem grepLoop_out {fuel : Nat} {reads : List Nat} {input : List Byte} {m : Int} {st st' : St}
    (h : grepLoop pattern fuel reads input m st = .ok () st') : st.out <+: st'.out := by
  induction fuel generalizing reads input m st with
  | zero => exact nomatch h
  | succ fuel ih =>
    rw [grepLoop] at h
    dsimp only at h
    split at h
    · cases h
      exact List.prefix_rfl
    · split at h
      · exact nomatch h
      · obtain ⟨q, mid, hmid, h⟩ := Out.bind_eq_ok.mp h
        have hlines := lineLoop_out hmid
        generalize (if q = 0 then (0 : Int) else _) = m' at h
        split at h
        · have hrest := ih h
          exact hlines.trans hrest
        · exact hlines.trans (ih h)

/-- With the pattern that matches everything, `buf` is what has been written to it. -/
theorem Near.eq_held (h : Near [] buf xs) : buf = held xs := by
  funext j
  exact (h j).resolve_right fun hr => hr.1 rfl

theorem filter_matchText_nil (ls : List (List Byte)) : ls.filter (matchText []) = ls :=
  List.filter_eq_self.mpr fun l _ => matchText_nil l

/-- A round that does not fail: some byte of `buf` has not been written yet, and everything up to the
last newline in `buf` has been printed. -/
theorem round_nil {fuel : Nat} {reads : List Nat} {input out z : List Byte} {st : St}
    (hrun : grepLoop [] (fuel + 1) reads input w.length ⟨held (w ++ stale), out⟩ = .ok () st)
    (hlen : (w ++ stale).length < bufSize) (hne : piece reads w input ≠ [])
    (hxs : w ++ piece reads w input ++ stale.drop (piece reads w input).length = xs) (h0 : 0 ∉ xs)
    (hlines : xs = text ls ++ z) (hls : ∀ l ∈ ls, newline ∉ l) (hz : newline ∉ z) :
    xs.length < bufSize ∧
      (if (text ls).length = 0 then
        grepLoop [] fuel reads.tail (input.drop (piece reads w input).length) 0 ⟨held xs, out⟩
      else
        grepLoop [] fuel reads.tail (input.drop (piece reads w input).length)
          (w.length + (piece reads w input).length - (text ls).length : Int)
          ⟨memmove (held xs) 0 (text ls).length
            (w.length + (piece reads w input).length - (text ls).length : Int).toNat,
            out ++ text ls⟩) = .ok () st := by
  have hbuf := (store_held w (piece reads w input) stale).trans (congrArg held hxs)
  rw [grepLoop_round [] out fuel hne hbuf] at hrun
  have hfits : xs.length ≤ bufSize := by
    have hle := piece_length_le reads w input
    rw [List.length_append] at hlen
    rw [← hxs, List.length_append, List.length_append, List.length_drop]
    omega
  have hroom : xs.length < bufSize := by
    refine lt_of_le_of_ne hfits fun hfull => ?_
    rw [lineLoop_fail [] out h0 hfull hlines hls hz] at hrun
    exact nomatch hrun
  obtain ⟨b, hb, -, hnear⟩ := lineLoop_ok [] out h0 hroom hlines hls hz
  rw [hb, Out.ok_bind, filter_matchText_nil, hnear.eq_held] at hrun
  refine ⟨hroom, ?_⟩
  split
  · rename_i hzero
    rw [if_pos hzero, List.length_eq_zero_iff.mp hzero, List.append_nil] at hrun
    exact hrun
  · rename_i hpos
    rw [if_neg hpos] at hrun
    exact hrun

/-- **An unfinished line that has been thrown away is missed.**  There is no newline in `buf`, and of
what should be written next, `d` is gone. -/
theorem lost_line {fuel : Nat} {reads : List Nat} {input out d : List Byte} {b : Buf}
    (hxs : newline ∉ xs) (h0 : 0 ∉ xs) (hlen : xs.length < bufSize) (hin0 : 0 ∉ input)
    (hin : newline ∈ input) (hd : d ≠ []) (hnl : newline ∉ d) :
    grepLoop [] fuel reads input 0 ⟨held xs, out⟩ ≠ .ok () ⟨b, out ++ d ++ input⟩ := by
  induction fuel generalizing reads xs input d with
  | zero => exact nofun
  | succ fuel ih =>
    intro hrun
    have hcut := piece_append reads [] input
    have hne : piece reads [] input ≠ [] := piece_ne_nil (by decide) (List.ne_nil_of_mem hin)
    obtain ⟨ys, hys⟩ : ∃ ys, [] ++ piece reads [] input ++ xs.drop (piece reads [] input).length = ys :=
      ⟨_, rfl⟩
    have hys0 : 0 ∉ ys := by
      rw [← hys, List.nil_append, List.mem_append, not_or]
      exact ⟨fun hmem => hin0 (hcut ▸ List.mem_append_left _ hmem),
        fun hmem => h0 (List.mem_of_mem_drop hmem)⟩
    obtain ⟨ls, z, hlines, hls, hz⟩ := exists_lines ys
    obtain ⟨hroom, hnext⟩ := round_nil (w := []) hrun hlen hne hys hys0 hlines hls hz
    generalize piece reads [] input = c at *
    rw [List.nil_append] at hys
    cases ls with
    | nil =>
      -- nothing is found, and more is thrown away
      have hys_nl : newline ∉ ys := by rw [hlines]; exact hz
      have hc : newline ∉ c := fun hmem => hys_nl (hys ▸ List.mem_append_left _ hmem)
      rw [if_pos (show (text []).length = 0 from rfl)] at hnext
      refine ih hys_nl hys0 hroom (fun hmem => hin0 (List.mem_of_mem_drop hmem)) ?_ (d := d ++ c)
        (by simp [hd]) (by simp [hnl, hc]) (hnext.trans ?_)
      · rw [← hcut, List.mem_append] at hin
        exact hin.resolve_left hc
      · rw [← List.append_assoc, List.append_assoc (out ++ d), hcut]
    | cons l ls =>
      -- a line without its beginning is printed
      rw [List.forall_mem_cons] at hls
      rw [text_cons, List.append_assoc, List.cons_append] at hlines
      have hc : newline ∈ c := by
        have hmem : newline ∈ c ++ xs.drop c.length := by
          rw [hys, hlines]
          simp
        rw [List.mem_append] at hmem
        exact hmem.resolve_right fun hr => hxs (List.mem_of_mem_drop hr)
      obtain ⟨l', c', rfl, hl'⟩ := exists_first_line hc
      obtain rfl : l' = l := by
        rw [hlines, List.append_assoc, List.cons_append] at hys
        exact (append_newline_inj hl' hls.1 hys).1
      have hpos : (text (l' :: ls)).length ≠ 0 := by simp
      rw [if_neg hpos] at hnext
      obtain ⟨r, hr⟩ := grepLoop_out hnext
      have hfirst : l' ++ newline :: (text ls ++ r) = (d ++ l') ++ newline :: (c' ++
          input.drop (l' ++ newline :: c').length) := by
        refine (List.append_right_inj out).mp ?_
        calc out ++ (l' ++ newline :: (text ls ++ r)) = out ++ text (l' :: ls) ++ r := by simp
          _ = out ++ d ++ input := hr
          _ = out ++ d ++ (l' ++ newline :: c' ++ input.drop (l' ++ newline :: c').length) := by
            rw [hcut]
          _ = _ := by simp
      have hlost := (append_newline_inj hls.1 (by simp [hnl, hls.1]) hfirst).1
      exact hd (List.self_eq_append_left.mp hlost)

/-- **A line that ends in stale bytes is printed, or the next read leaves `buf`.**  The count `m` has
become negative. -/
theorem read_before_buf {fuel : Nat} {reads : List Nat} {input expected : List Byte} {m : Int}
    {st : St} {b : Buf} (hm : m < 0) (hexp : expected.length < st.out.length + input.length) :
    grepLoop pattern fuel reads input m st ≠ .ok () ⟨b, expected⟩ := by
  intro hrun
  cases fuel with
  | zero => exact nomatch hrun
  | succ fuel =>
    rw [grepLoop] at hrun
    dsimp only at hrun
    split at hrun
    · rename_i hnil
      rw [List.take_eq_nil_iff] at hnil
      have hin : input = [] := hnil.resolve_left (by omega)
      have hout : st.out = expected := congrArg St.out (Out.ok.inj hrun).2
      rw [hout, hin] at hexp
      simp at hexp
    · exact nomatch hrun

/-- **If everything is printed, the run was tidy.** -/
theorem tidy_of_grepLoop {fuel : Nat} {reads : List Nat} {input out : List Byte} {b : Buf}
    (hw : newline ∉ w) (h0 : 0 ∉ w ++ stale) (hlen : (w ++ stale).length < bufSize)
    (hin0 : 0 ∉ input) (hend : input = [] ∨ input.getLast? = some newline)
    (hrun : grepLoop [] fuel reads input w.length ⟨held (w ++ stale), out⟩ =
      .ok () ⟨b, out ++ w ++ input⟩) : Tidy reads w stale input := by
  induction fuel generalizing reads w stale input out with
  | zero => exact nomatch hrun
  | succ fuel ih =>
    by_cases hin : input = []
    · subst hin
      exact .done
    have hcut := piece_append reads w input
    have hexp : out ++ w ++ input =
        out ++ (w ++ piece reads w input) ++ input.drop (piece reads w input).length := by
      conv_lhs => rw [← hcut]
      simp only [List.append_assoc]
    have hne : piece reads w input ≠ [] := by
      rw [List.length_append] at hlen
      exact piece_ne_nil (by omega) hin
    obtain ⟨xs, hxs⟩ : ∃ xs, w ++ piece reads w input ++
        stale.drop (piece reads w input).length = xs := ⟨_, rfl⟩
    have hxs0 : 0 ∉ xs := by
      rw [← hxs]
      simp only [List.mem_append, not_or] at h0 ⊢
      exact ⟨⟨h0.1, fun hmem => hin0 (hcut ▸ List.mem_append_left _ hmem)⟩,
        fun hmem => h0.2 (List.mem_of_mem_drop hmem)⟩
    by_cases hstale : newline ∈ stale.drop (piece reads w input).length
    · obtain ⟨ls, z, hlines, hls, hz⟩ := exists_lines xs
      obtain ⟨-, hnext⟩ := round_nil hrun hlen hne hxs hxs0 hlines hls hz
      generalize piece reads w input = c at *
      -- the last line found ends behind what has been read
      have hbehind : w.length + c.length < (text ls).length := by
        rcases List.append_eq_append_iff.mp (hxs.trans hlines) with ⟨a, ha, hsd⟩ | ⟨a, -, rfl⟩
        · have hla := congrArg List.length ha
          rw [List.length_append, List.length_append] at hla
          rw [hsd, List.mem_append] at hstale
          have hpos := List.length_pos_of_mem (hstale.resolve_right hz)
          omega
        · exact absurd (List.mem_append_right _ hstale) hz
      have hinput := congrArg List.length hcut
      rw [List.length_append] at hinput
      rw [if_neg (by omega)] at hnext
      refine absurd hnext (read_before_buf (by omega) ?_)
      simp only [List.length_append]
      omega
    · obtain ⟨ls, w', hsplit, hls, hw'⟩ := exists_lines (w ++ piece reads w input)
      have hlines : xs = text ls ++ (w' ++ stale.drop (piece reads w input).length) := by
        rw [← hxs, hsplit, List.append_assoc]
      have hlast : newline ∉ w' ++ stale.drop (piece reads w input).length := by
        rw [List.mem_append, not_or]
        exact ⟨hw', hstale⟩
      obtain ⟨hroom, hnext⟩ := round_nil hrun hlen hne hxs hxs0 hlines hls hlast
      by_cases hfinishes : newline ∈ piece reads w input
      · refine .round hin hfinishes hstale (hxs ▸ hroom) hsplit hls hw' ?_
        rw [hxs]
        generalize piece reads w input = c at *
        have hlen' : w.length + c.length = (text ls).length + w'.length := by
          rw [← List.length_append, hsplit, List.length_append]
        have hpos : (text ls).length ≠ 0 := by
          intro hzero
          rw [List.length_eq_zero_iff] at hzero
          rw [hzero, List.nil_append] at hsplit
          exact hw' (hsplit ▸ List.mem_append_right _ hfinishes)
        have hm : (w.length + c.length - (text ls).length : Int) = w'.length := by omega
        have hmove := near_memmove [] (hlines.trans (List.append_assoc ..).symm)
          (fun _ _ => rfl) fun _ => .inl rfl
        rw [if_neg hpos, hm, Int.toNat_natCast, hmove.eq_held] at hnext
        have hw'0 : 0 ∉ w' := fun hmem => hxs0 <| by
          rw [hlines]
          exact List.mem_append_right _ (List.mem_append_left _ hmem)
        have hw'len : w'.length ≤ xs.length := by
          rw [hlines, List.length_append, List.length_append]
          omega
        have hout : out ++ w ++ input = out ++ text ls ++ w' ++ input.drop c.length := by
          rw [hexp, hsplit]
          simp only [List.append_assoc]
        rw [hout] at hnext
        exact ih hw' (zero_not_mem_next hw'0 hxs0) ((length_next hw'len).trans_lt hroom)
          (fun hmem => hin0 (List.mem_of_mem_drop hmem)) (getLast?_drop hcut hend) hnext
      · -- nothing is found, and the unfinished line is thrown away
        generalize piece reads w input = c at *
        have hnil : ls = [] := by
          by_contra hls_ne
          have hmem : newline ∈ w ++ c := hsplit ▸ List.mem_append_left _ (newline_mem_text hls_ne)
          rw [List.mem_append] at hmem
          exact hmem.elim hw hfinishes
        subst hnil
        rw [if_pos (show (text []).length = 0 from rfl)] at hnext
        have hxs_nl : newline ∉ xs := by
          rw [hlines]
          exact hlast
        have hrest : newline ∈ input.drop c.length := by
          have hmem : newline ∈ input := List.mem_of_getLast? (hend.resolve_left hin)
          rw [← hcut, List.mem_append] at hmem
          exact hmem.resolve_left hfinishes
        rw [hexp] at hnext
        exact absurd hnext (lost_line hxs_nl hxs0 hroom
          (fun hmem => hin0 (List.mem_of_mem_drop hmem)) hrest (by simp [hne]) (by simp [hw, hfinishes]))

/-! ## 8. `grep` -/

theorem getLast?_text (ls : List (List Byte)) : text ls = [] ∨ (text ls).getLast? = some newline := by
  rcases List.eq_nil_or_concat ls with rfl | ⟨ls, l, rfl⟩
  · exact .inl rfl
  · right
    rw [List.concat_eq_append, text_append, text_cons, text_nil, ← List.append_assoc,
      List.getLast?_concat]

theorem zero_not_mem_text (h0 : ∀ l ∈ ls, 0 ∉ l) : 0 ∉ text ls := by
  intro hmem
  obtain ⟨l, hl, hmem⟩ := List.mem_flatMap.mp hmem
  rw [List.mem_append] at hmem
  exact hmem.elim (h0 l hl) (by decide)

theorem tidy_of_grep {fuel : Nat} {reads : List Nat} (h0 : ∀ l ∈ ls, 0 ∉ l)
    (h : grep fuel [] reads (text ls) = .ok (text (ls.filter (matchText []))) ()) :
    Tidy reads [] [] (text ls) := by
  obtain ⟨u, ⟨b, out⟩, hloop, hout⟩ := Out.bind_eq_ok.mp h
  obtain rfl : out = text ls := by
    rw [← filter_matchText_nil ls]
    exact (Out.ok.inj hout).1
  exact tidy_of_grepLoop (w := []) nofun nofun (by decide) (zero_not_mem_text h0) (getLast?_text ls)
    hloop

/-- **`grep` prints exactly the matching lines, for every pattern, exactly if the reads split its input
tidily.** -/
theorem grep_prints_matching_lines_iff (ls : List (List Byte)) (reads : List Nat)
    (hls : ∀ l ∈ ls, newline ∉ l) (h0 : ∀ l ∈ ls, 0 ∉ l) :
    (∀ pattern, ∃ fuel, grep fuel pattern reads (text ls) =
      .ok (text (ls.filter (matchText pattern))) ()) ↔ Tidy reads [] [] (text ls) := by
  constructor
  · intro h
    obtain ⟨fuel, hrun⟩ := h []
    exact tidy_of_grep h0 hrun
  · intro htidy pattern
    have hnear : Near pattern (fun _ => 0) ([] ++ []) := fun _ => .inl rfl
    obtain ⟨b, hb⟩ := grepLoop_of_tidy htidy pattern [] ((text ls).length + 1) hnear nofun nofun
      (zero_not_mem_text h0) hls rfl (Nat.lt_succ_self _)
    refine ⟨(text ls).length + 1, ?_⟩
    rw [grep]
    exact congrArg (Out.bind · _) hb

/-- Three lines: `aaa`, `bbb` and `c`. -/
def threeLines : List (List Byte) := [[97, 97, 97], [98, 98, 98], [99]]

/-- They are read at once. -/
theorem grep_prints_three_lines : ∃ fuel, grep fuel [98] [9] (text threeLines) =
    .ok (text (threeLines.filter (matchText [98]))) () :=
  (grep_prints_matching_lines_iff threeLines [9] (by decide) (by decide)).mpr
    (@Tidy.round [9] [] [] (text threeLines) [] threeLines (by decide) (by decide) (by decide)
      (by decide) (by decide) (by decide) (by decide) .done) [98]

/-- What a tidy round leaves, if it reads as far as a newline. -/
theorem Tidy.next {reads : List Nat} {input : List Byte} (h : Tidy reads w stale input)
    (hin : input ≠ []) (hend : (w ++ piece reads w input).getLast? = some newline) :
    newline ∉ stale.drop (piece reads w input).length ∧
      Tidy reads.tail [] (w ++ piece reads w input ++ stale.drop (piece reads w input).length)
        (input.drop (piece reads w input).length) := by
  cases h with
  | done => exact absurd rfl hin
  | @round _ _ _ _ w' ls _ _ hstale _ hsplit _ hw' hnext =>
    have hnil : w' = [] := by
      by_contra hne
      rw [hsplit, List.getLast?_append, List.getLast?_eq_some_getLast hne] at hend
      exact hw' (Option.some.inj hend ▸ List.getLast_mem hne)
    subst hnil
    exact ⟨hstale, hnext⟩

/-- **They are read in two pieces**, of which the second is shorter, and the newlines of the first are
found again behind it. -/
theorem grep_prints_stale_lines : ¬ ∃ fuel, grep fuel [] [7, 1] (text threeLines) =
    .ok (text (threeLines.filter (matchText []))) () := by
  rintro ⟨fuel, h⟩
  have htidy := tidy_of_grep (by decide) h
  have hsecond := (htidy.next (by decide) (by decide)).2
  exact (hsecond.next (by decide) (by decide)).1 (by decide)

end Xv6.Grep
