import Mathlib.Data.List.Infix
import MotionPie.Base.Replace
import MotionPie.Shell.Text

/-!
# The escapes of echo -e

`echo -e` of the shell replaces escapes in its argument. A password or a name that is put into
the argument comes out as it was only if none of its backslashes starts an escape, which is what
`Kept` says.
-/

namespace MotionPie.Shell

open Base

/-! ### Escapes -/

/-- A piece of the argument, what is written for it, and whether the output stops there. -/
structure Piece where
  source : Bytes
  out : Bytes
  stop : Bool
  deriving DecidableEq

/-- What the locale writes for a character beyond ASCII: its encoding or an escape of ISO C. -/
structure Encoding where
  write : Nat → Bytes
  control : ∀ n, ∀ b ∈ write n, b ≠ 0 ∧ b ≠ newline
  backslash : ∀ n, 92 ∉ (write n).tail

/-- An octal digit. -/
def isOctal (b : UInt8) : Bool := 48 ≤ b && b ≤ 55

/-- A hexadecimal digit. -/
def isHex (b : UInt8) : Bool := isDigit b || (65 ≤ b && b ≤ 70) || (97 ≤ b && b ≤ 102)

/-- The value of a hexadecimal digit. -/
def hexValue (b : UInt8) : Nat :=
  if isDigit b then b.toNat - 48 else if b ≤ 70 then b.toNat - 55 else b.toNat - 87

/-- The number that digits stand for. -/
def digitsValue (base : Nat) (ds : Bytes) : Nat := ds.foldl (fun n b ↦ base * n + hexValue b) 0

/-- The digits at the start, `k` at most. -/
def leading (p : UInt8 → Bool) (k : Nat) (s : Bytes) : Bytes := (s.take k).takeWhile p

/-- The byte that a letter stands for. -/
def letter : UInt8 → Option UInt8
  | 97 => some 7
  | 98 => some 8
  | 101 => some 27
  | 69 => some 27
  | 102 => some 12
  | 110 => some newline
  | 114 => some 13
  | 116 => some 9
  | 118 => some 11
  | 92 => some 92
  | _ => none

/-- How many hexadecimal digits follow `x`, `u` and `U`. -/
def hexWidth : UInt8 → Nat
  | 120 => 2
  | 117 => 4
  | 85 => 8
  | _ => 0

/-- The escape at the start. A backslash that starts none stands for itself. -/
def escape (e : Encoding) : Bytes → Option Piece
  | 92 :: c :: s =>
    match letter c with
    | some b => some ⟨[92, c], [b], false⟩
    | none =>
      if c = 99 then some ⟨[92, c], [], true⟩
      else if c = 48 then
        let ds := leading isOctal 3 s
        some ⟨92 :: c :: ds, [(digitsValue 8 ds).toUInt8], false⟩
      else
        let ds := leading isHex (hexWidth c) s
        if ds = [] then none
        else if c = 120 ∨ digitsValue 16 ds ≤ 127 then
          some ⟨92 :: c :: ds, [(digitsValue 16 ds).toUInt8], false⟩
        else some ⟨92 :: c :: ds, e.write (digitsValue 16 ds), false⟩
  | _ => none

/-- A hexadecimal digit. -/
def hexDigit (n : Nat) : UInt8 := (if n < 10 then 48 + n else 55 + n).toUInt8

/-- The escape of ISO C for a character. -/
def isoC (n : Nat) : Bytes :=
  let k := if n < 65536 then 4 else 8
  92 :: 117 :: (List.range k).map fun i ↦ hexDigit (n >>> (4 * (k - 1 - i)) % 16)

-- Behind the backslash there are a letter and digits.
private theorem graphic_of_mem_isoC {n : Nat} {b : UInt8} (hb : b ∈ (isoC n).tail) :
    b ≠ 0 ∧ b ≠ newline ∧ b ≠ 92 := by
  have hdigit : ∀ d < 16, hexDigit d ≠ 0 ∧ hexDigit d ≠ newline ∧ hexDigit d ≠ 92 := by decide
  rcases List.mem_cons.mp hb with rfl | hb
  · decide
  · obtain ⟨i, -, rfl⟩ := List.mem_map.mp hb
    exact hdigit _ (Nat.mod_lt _ (by decide))

private theorem control_of_mem_isoC {n : Nat} {b : UInt8} (hb : b ∈ isoC n) :
    b ≠ 0 ∧ b ≠ newline := by
  rcases List.mem_cons.mp hb with rfl | hb
  · decide
  · obtain ⟨hzero, hnewline, -⟩ := graphic_of_mem_isoC (n := n) hb
    exact ⟨hzero, hnewline⟩

/-- The POSIX locale has no characters beyond ASCII. -/
def posix : Encoding where
  write := isoC
  control _ _ := control_of_mem_isoC
  backslash _ hb := (graphic_of_mem_isoC hb).2.2 rfl

/-- A byte that stands for itself. -/
def plain (b : UInt8) : Piece := ⟨[b], [b], false⟩

/-- The piece at the start, with its length. -/
def pieceAt (e : Encoding) : Pattern UInt8 Piece
  | [] => none
  | b :: s =>
    match escape e (b :: s) with
    | some x => some (x, x.source.length)
    | none => some (plain b, 1)

/-- The pieces of an argument. -/
def pieces (e : Encoding) (s : Bytes) : List Piece := scan (pieceAt e) s

/-- What is written for the pieces up to a stop. -/
def written (L : List Piece) : Bytes := (L.takeWhile fun x ↦ !x.stop).flatMap Piece.out

/-- `echo -en s`. -/
def echoEn (e : Encoding) (s : Bytes) : Bytes := written (pieces e s)

/-- `echo -e s`: a stop leaves out the terminator, too. -/
def echoE (e : Encoding) (s : Bytes) : Bytes :=
  written (pieces e s) ++ if (pieces e s).any Piece.stop then [] else [newline]

/-- No byte at the end and no escape is replaced by something else. -/
structure Kept (e : Encoding) (s : Bytes) : Prop where
  last : s.getLast? ≠ some 92
  escape : ∀ t ∈ s.tails, ∀ x, escape e t = some x → x.out = x.source

/-! ### The escape at a place -/

variable {e : Encoding}

/-- Only a backslash starts an escape. -/
theorem escape_of_ne {b : UInt8} (hb : b ≠ 92) (s : Bytes) : escape e (b :: s) = none := by
  cases s <;> simp [escape, hb]

/-- Digits end before a byte that is none. -/
theorem leading_append {p : UInt8 → Bool} {d : UInt8} (hd : p d = false) (k : Nat) (s u : Bytes) :
    leading p k (s ++ d :: u) = leading p k s := by
  induction s generalizing k with
  | nil => cases k <;> simp [leading, hd]
  | cons b s ih =>
    cases k with
    | zero => rfl
    | succ k =>
      have hk := ih k
      simp only [leading, List.cons_append, List.take_succ_cons, List.takeWhile_cons] at hk ⊢
      rw [hk]

/-- What follows a byte that is no digit does not matter for an escape before it. -/
theorem escape_append {d : UInt8} (hoct : isOctal d = false) (hhex : isHex d = false) (c : UInt8)
    (s u : Bytes) : escape e (92 :: c :: s ++ d :: u) = escape e (92 :: c :: s) := by
  simp only [List.cons_append, escape, leading_append hoct, leading_append hhex]

/-- Digits at the start are a part of the text. -/
theorem leading_prefix (p : UInt8 → Bool) (k : Nat) (s : Bytes) : leading p k s <+: s :=
  (List.takeWhile_prefix p).trans (List.take_prefix k s)

/-- Digits at the start are digits. -/
theorem of_mem_leading {p : UInt8 → Bool} {k : Nat} {s : Bytes} {b : UInt8}
    (hb : b ∈ leading p k s) : p b = true :=
  List.mem_takeWhile_imp hb

/-- An escape is a backslash, a letter and digits. -/
theorem source_escape {t : Bytes} {x : Piece} (h : escape e t = some x) :
    ∃ c ds s, x.source = 92 :: c :: ds ∧ t = x.source ++ s ∧ 92 ∉ ds ∧ (c = 92 → x.out = [92]) := by
  unfold escape at h
  split at h
  · next c s =>
    split at h
    · next b hletter =>
      cases h
      refine ⟨c, [], s, rfl, rfl, by simp, ?_⟩
      rintro rfl
      cases hletter
      rfl
    · next hletter =>
      have hc : c ≠ 92 := by
        rintro rfl
        cases hletter
      have hdigits : ∀ {p : UInt8 → Bool} {k : Nat}, p 92 = false →
          ∃ u, s = leading p k s ++ u ∧ 92 ∉ leading p k s := by
        intro p k hp
        obtain ⟨u, hu⟩ := leading_prefix p k s
        exact ⟨u, hu.symm, fun hmem ↦ by simp [of_mem_leading hmem] at hp⟩
      split at h
      · cases h
        exact ⟨c, [], s, rfl, rfl, by simp, fun h ↦ absurd h hc⟩
      · split at h
        · cases h
          obtain ⟨u, hu, hnot⟩ := hdigits (p := isOctal) (k := 3) (by decide)
          exact ⟨c, _, u, rfl, congrArg (92 :: c :: ·) hu, hnot, fun h ↦ absurd h hc⟩
        · obtain ⟨u, hu, hnot⟩ := hdigits (p := isHex) (k := hexWidth c) (by decide)
          dsimp only at h
          split at h
          · cases h
          · split at h
            · cases h
              exact ⟨c, _, u, rfl, congrArg (92 :: c :: ·) hu, hnot, fun h ↦ absurd h hc⟩
            · cases h
              exact ⟨c, _, u, rfl, congrArg (92 :: c :: ·) hu, hnot, fun h ↦ absurd h hc⟩
  · cases h

/-- What is written for an escape: nothing, one byte, or what the locale has for it. -/
theorem out_escape {t : Bytes} {x : Piece} (h : escape e t = some x) :
    x.out = [] ∨ x.stop = false ∧ ((∃ b, x.out = [b]) ∨ ∃ n, x.out = e.write n) := by
  unfold escape at h
  split at h
  · split at h
    · cases h
      exact .inr ⟨rfl, .inl ⟨_, rfl⟩⟩
    · split at h
      · cases h
        exact .inl rfl
      · split at h
        · cases h
          exact .inr ⟨rfl, .inl ⟨_, rfl⟩⟩
        · dsimp only at h
          split at h
          · cases h
          · split at h
            · cases h
              exact .inr ⟨rfl, .inl ⟨_, rfl⟩⟩
            · cases h
              exact .inr ⟨rfl, .inr ⟨_, rfl⟩⟩
  · cases h

/-! ### Pieces -/

/-- What is known of a piece: a backslash in front where something else is written for it, and
no backslash and no control byte in what is written but alone or in front. -/
structure Piece.Sound (x : Piece) : Prop where
  source : x.out = x.source ∨ x.source.head? = some 92
  tail : 92 ∉ x.out.tail
  control : ∀ b ∈ x.out, b = 0 ∨ b = newline → x.out = [b]
  stop : x.stop = true → x.out = [] ∧ x.source.head? = some 92

/-- A byte that stands for itself is sound. -/
theorem sound_plain (b : UInt8) : (plain b).Sound where
  source := .inl rfl
  tail := List.not_mem_nil
  control _ hb _ := congrArg (fun c ↦ [c]) (List.mem_singleton.mp hb).symm
  stop h := nomatch h

/-- An escape is sound. -/
theorem sound_escape {t : Bytes} {x : Piece} (h : escape e t = some x) : x.Sound := by
  obtain ⟨c, ds, s, hsource, -, -, -⟩ := source_escape h
  have hhead : x.source.head? = some 92 := by
    rw [hsource]
    rfl
  rcases out_escape h with hnil | ⟨hstop, ⟨b, hb⟩ | ⟨n, hn⟩⟩
  · exact ⟨.inr hhead, by simp [hnil], by simp [hnil], fun _ ↦ ⟨hnil, hhead⟩⟩
  · exact ⟨.inr hhead, by simp [hb], by simp [hb], by simp [hstop]⟩
  · refine ⟨.inr hhead, hn ▸ e.backslash n, ?_, by simp [hstop]⟩
    intro b hb hcontrol
    obtain ⟨hzero, hnewline⟩ := e.control n b (hn ▸ hb)
    exact absurd hcontrol (by simp [hzero, hnewline])

/-- A text that ends in no backslash of its own, with its pieces. -/
inductive Lexed (e : Encoding) : Bytes → List Piece → Prop
  | nil : Lexed e [] []
  | plain {b s L} : b ≠ 92 → Lexed e s L → Lexed e (b :: s) (plain b :: L)
  | backslash {c s L} : Shell.escape e (92 :: c :: s) = none → Lexed e (c :: s) L →
      Lexed e (92 :: c :: s) (Shell.plain 92 :: L)
  | escape {x s L} : Shell.escape e (x.source ++ s) = some x → Lexed e s L →
      Lexed e (x.source ++ s) (x :: L)

/-- A byte that starts no escape is a piece. -/
theorem pieces_plain {b : UInt8} {s : Bytes} (h : escape e (b :: s) = none) :
    pieces e (b :: s) = plain b :: pieces e s := by
  rw [pieces, scan_cons_of_some (b := plain b) (n := 1) (by rw [pieceAt, h])]
  rfl

/-- An escape is a piece. -/
theorem pieces_escape {x : Piece} {s : Bytes} (h : escape e (x.source ++ s) = some x) :
    pieces e (x.source ++ s) = x :: pieces e s := by
  obtain ⟨c, ds, -, hsource, -, -, -⟩ := source_escape h
  have hat : pieceAt e (92 :: (c :: ds ++ s)) = some (x, x.source.length) := by
    rw [hsource] at h
    rw [pieceAt]
    simp only [List.cons_append] at h ⊢
    rw [h]
  have hdrop : (c :: ds ++ s).drop (x.source.length - 1) = s := by
    rw [hsource]
    exact List.drop_left' rfl
  rw [pieces, pieces]
  nth_rewrite 1 [hsource]
  rw [List.cons_append, scan_cons_of_some hat, hdrop]

/-- An escape at the end of a text stays one when a backslash follows. -/
theorem escape_source_append {x : Piece} {s u : Bytes} (hx : ∃ c ds, x.source = 92 :: c :: ds) :
    escape e (x.source ++ (s ++ 92 :: u)) = escape e (x.source ++ s) := by
  obtain ⟨c, ds, hsource⟩ := hx
  have happend := escape_append (e := e) (d := 92) (by decide) (by decide) c (ds ++ s) u
  simpa [hsource] using happend

/-- The letter and the digits of an escape. -/
theorem exists_source {t : Bytes} {x : Piece} (h : escape e t = some x) :
    ∃ c ds, x.source = 92 :: c :: ds := by
  obtain ⟨c, ds, -, hsource, -⟩ := source_escape h
  exact ⟨c, ds, hsource⟩

/-- Every text is lexed, but for a backslash at its end. -/
theorem lexed_or (s : Bytes) :
    (∃ L, Lexed e s L) ∨ ∃ t L, s = t ++ [92] ∧ Lexed e t L := by
  induction hlen : s.length using Nat.strongRecOn generalizing s with
  | _ len ih =>
    match s, hlen with
    | [], _ => exact .inl ⟨[], .nil⟩
    | b :: s, hlen =>
      rw [List.length_cons] at hlen
      cases hescape : escape e (b :: s) with
      | some x =>
        obtain ⟨c, ds, u, hsource, hs, -, -⟩ := source_escape hescape
        have hlength := congrArg List.length hs
        rw [hsource] at hlength
        simp only [List.length_append, List.length_cons] at hlength
        rw [hs] at hescape ⊢
        rcases ih u.length (by omega) u rfl with ⟨L, hL⟩ | ⟨t, L, rfl, hL⟩
        · exact .inl ⟨_, .escape hescape hL⟩
        · rw [escape_source_append (exists_source hescape)] at hescape
          exact .inr ⟨_, _, (List.append_assoc _ _ _).symm, .escape hescape hL⟩
      | none =>
        by_cases hb : b = 92
        · subst hb
          match s with
          | [] => exact .inr ⟨[], [], rfl, .nil⟩
          | c :: s =>
            rcases ih (c :: s).length (by omega) (c :: s) rfl with ⟨L, hL⟩ | ⟨t, L, ht, hL⟩
            · exact .inl ⟨_, .backslash hescape hL⟩
            · match t with
              | [] =>
                obtain ⟨rfl, rfl⟩ : c = 92 ∧ s = [] := by simpa using ht
                cases hescape
              | d :: t =>
                obtain ⟨rfl, rfl⟩ : c = d ∧ s = t ++ [92] := by simpa using ht
                have hsame := escape_append (e := e) (d := 92) (by decide) (by decide) c t []
                exact .inr ⟨92 :: c :: t, _, rfl, .backslash (hsame.symm.trans hescape) hL⟩
        · rcases ih s.length (by omega) s rfl with ⟨L, hL⟩ | ⟨t, L, rfl, hL⟩
          · exact .inl ⟨_, .plain hb hL⟩
          · exact .inr ⟨b :: t, _, rfl, .plain hb hL⟩

namespace Kept

variable {s w : Bytes} {b : UInt8}

/-- The empty text is kept. -/
theorem nil : Kept e [] where
  last := by simp
  escape t ht x hx := by
    obtain rfl : t = [] := by simpa using ht
    cases hx

/-- A byte in front, where no escape that is replaced begins. -/
theorem cons (hlast : b ≠ 92 ∨ s ≠ []) (hfirst : ∀ x, Shell.escape e (b :: s) = some x →
    x.out = x.source) (h : Kept e s) : Kept e (b :: s) where
  last := by
    cases s with
    | nil => simpa using hlast
    | cons c s => simpa using h.last
  escape t ht := by
    rw [List.tails, List.mem_cons] at ht
    rcases ht with rfl | ht
    · exact hfirst
    · exact h.escape t ht

/-- Bytes in front that are no backslashes. -/
theorem append (hw : 92 ∉ w) (h : Kept e s) : Kept e (w ++ s) := by
  induction w with
  | nil => exact h
  | cons b w ih =>
    rw [List.mem_cons, not_or] at hw
    have hb : b ≠ 92 := Ne.symm hw.1
    apply cons (.inl hb) _ (ih hw.2)
    intro x hx
    rw [escape_of_ne hb] at hx
    cases hx

/-- The end of a text that is kept. -/
theorem of_append (h : Kept e (w ++ s)) : Kept e s where
  last := by
    intro hs
    apply h.last
    rw [List.getLast?_append, hs]
    rfl
  escape t ht := by
    apply h.escape t
    rw [List.mem_tails] at ht ⊢
    exact ht.trans (List.suffix_append w s)

end Kept

namespace Lexed

variable {s : Bytes} {L : List Piece}

/-- The pieces are pieces of the text. -/
theorem flatMap_source (h : Lexed e s L) : L.flatMap Piece.source = s := by
  induction h with
  | nil => rfl
  | plain _ _ ih => rw [List.flatMap_cons, ih]; rfl
  | backslash _ _ ih => rw [List.flatMap_cons, ih]; rfl
  | escape _ _ ih => rw [List.flatMap_cons, ih]

/-- The pieces are sound. -/
theorem sound (h : Lexed e s L) : ∀ x ∈ L, x.Sound := by
  induction h with
  | nil => simp
  | plain _ _ ih => exact List.forall_mem_cons.mpr ⟨sound_plain _, ih⟩
  | backslash _ _ ih => exact List.forall_mem_cons.mpr ⟨sound_plain _, ih⟩
  | escape hx _ ih => exact List.forall_mem_cons.mpr ⟨sound_escape hx, ih⟩

/-- The pieces stay when a backslash follows. -/
theorem pieces_append (h : Lexed e s L) (u : Bytes) :
    pieces e (s ++ 92 :: u) = L ++ pieces e (92 :: u) := by
  induction h with
  | nil => rfl
  | plain hb _ ih => rw [List.cons_append, pieces_plain (escape_of_ne hb _), ih]; rfl
  | @backslash c s L hescape _ ih =>
    have hsame := escape_append (e := e) (d := 92) (by decide) (by decide) c s u
    change pieces e (92 :: (c :: s ++ 92 :: u)) = _
    rw [pieces_plain (s := c :: s ++ 92 :: u) (hsame.trans hescape), ih]
    rfl
  | escape hx _ ih =>
    rw [List.append_assoc, pieces_escape, ih]
    · rfl
    · rw [escape_source_append (exists_source hx), hx]

/-- A text whose pieces stand for themselves is kept. -/
theorem kept (h : Lexed e s L) (hfixed : ∀ x ∈ L, x.out = x.source) : Kept e s := by
  induction h with
  | nil => exact .nil
  | plain hb _ ih =>
    rw [List.forall_mem_cons] at hfixed
    exact .append (w := [_]) (by simpa using Ne.symm hb) (ih hfixed.2)
  | backslash hescape _ ih =>
    rw [List.forall_mem_cons] at hfixed
    exact .cons (.inr (by simp)) (fun x hx ↦ by simp [hescape] at hx) (ih hfixed.2)
  | @escape x s L hescape _ ih =>
    rw [List.forall_mem_cons] at hfixed
    obtain ⟨c, ds, -, hsource, -, hds, hback⟩ := source_escape hescape
    have hc : c ≠ 92 := by
      intro hc
      have hout := hfixed.1
      rw [hback hc, hsource] at hout
      cases hout
    have htail : Kept e (c :: ds ++ s) := .append (by simp [hds, Ne.symm hc]) (ih hfixed.2)
    rw [hsource] at hescape ⊢
    apply Kept.cons (.inr (by simp)) _ htail
    intro y hy
    obtain rfl : x = y := Option.some.inj (hescape.symm.trans hy)
    rw [hfixed.1]

/-- The pieces of a text that is kept stand for themselves. -/
theorem fixed (h : Lexed e s L) (hkept : Kept e s) : ∀ x ∈ L, x.out = x.source := by
  induction h with
  | nil => simp
  | plain _ _ ih => exact List.forall_mem_cons.mpr ⟨rfl, ih (hkept.of_append (w := [_]))⟩
  | backslash _ _ ih => exact List.forall_mem_cons.mpr ⟨rfl, ih (hkept.of_append (w := [_]))⟩
  | @escape x s L hescape _ ih =>
    have hwhole : x.source ++ s ∈ (x.source ++ s).tails :=
      (List.mem_tails _ _).mpr List.suffix_rfl
    exact List.forall_mem_cons.mpr ⟨hkept.escape _ hwhole x hescape, ih hkept.of_append⟩

end Lexed

/-! ### The first line that is written -/

/-- Nothing ends the first line in the piece. -/
def Piece.clean (x : Piece) : Bool := !x.stop && decide (newline ∉ x.out)

/-- The first line comes from the pieces before the first one that ends it. -/
theorem firstLine_written {M : List Piece} (hM : ∀ x ∈ M, x.Sound) :
    firstLine (written M) = (M.takeWhile Piece.clean).flatMap Piece.out := by
  induction M with
  | nil => rfl
  | cons x M ih =>
    rw [List.forall_mem_cons] at hM
    cases hstop : x.stop with
    | true => simp [written, firstLine, Piece.clean, hstop]
    | false =>
      have hwritten : written (x :: M) = x.out ++ written M := by simp [written, hstop]
      rw [hwritten, List.takeWhile_cons]
      by_cases hnewline : newline ∈ x.out
      · have hout := hM.1.control newline hnewline (.inr rfl)
        have hclean : x.clean = false := by simp [Piece.clean, hnewline]
        rw [hout, hclean]
        rfl
      · have hclean : x.clean = true := by simp [Piece.clean, hnewline, hstop]
        rw [hclean, firstLine, List.takeWhile_append_of_pos (forall_ne hnewline)]
        exact congrArg (x.out ++ ·) (ih hM.2)

/-- A sound piece writes no more backslashes than it has. -/
theorem Piece.Sound.count_le {x : Piece} (h : x.Sound) : x.out.count 92 ≤ x.source.count 92 := by
  rcases h.source with heq | hhead
  · rw [heq]
  · obtain ⟨u, hu⟩ := List.head?_eq_some_iff.mp hhead
    have hone : x.out.count 92 ≤ 1 := by
      have htail := List.count_eq_zero_of_not_mem h.tail
      cases hout : x.out with
      | nil => simp
      | cons b v =>
        rw [hout, List.tail_cons] at htail
        rw [List.count_cons, htail]
        split <;> omega
    rw [hu, List.count_cons_self]
    omega

/-- A sound piece that keeps its backslashes. -/
theorem Piece.Sound.aligned {x : Piece} (h : x.Sound)
    (hcount : x.out.count 92 = x.source.count 92) : Aligned 92 x.source x.out := by
  rcases h.source with heq | hhead
  · exact .inl heq.symm
  · obtain ⟨u, hu⟩ := List.head?_eq_some_iff.mp hhead
    have htail := List.count_eq_zero_of_not_mem h.tail
    rw [hu, List.count_cons_self] at hcount
    cases hout : x.out with
    | nil => simp [hout] at hcount
    | cons b v =>
      rw [hout, List.tail_cons] at htail
      rw [hout, List.count_cons, htail] at hcount
      split at hcount
      · next hb =>
        have hb : b = 92 := by simpa using hb
        refine .inr ⟨u, v, hu, by rw [hb], ?_, List.count_eq_zero.mp htail⟩
        apply List.count_eq_zero.mp
        omega
      · omega

/-- When no backslash is lost, no piece ends the line. -/
theorem takeWhile_clean {L : List Piece} (hL : ∀ x ∈ L, x.Sound)
    (hnewline : newline ∉ L.flatMap Piece.source)
    (hcount : (L.flatMap Piece.source).count 92 ≤
      ((L.takeWhile Piece.clean).flatMap Piece.out).count 92) :
    L.takeWhile Piece.clean = L := by
  have hsplit : L.takeWhile Piece.clean ++ L.dropWhile Piece.clean = L :=
    List.takeWhile_append_dropWhile
  cases hrest : L.dropWhile Piece.clean with
  | nil => rwa [hrest, List.append_nil] at hsplit
  | cons x R =>
    have hx : x ∈ L := by
      rw [← hsplit, hrest]
      simp
    have hdirty : x.clean = false := by
      have hnot := List.head_dropWhile_not Piece.clean (l := L) (by simp [hrest])
      simpa [hrest] using hnot
    have hhead : x.source.head? = some 92 := by
      by_cases hstop : x.stop = true
      · exact ((hL x hx).stop hstop).2
      · have hmem : newline ∈ x.out := by simpa [Piece.clean, hstop] using hdirty
        rcases (hL x hx).source with heq | hhead
        · exact absurd (List.mem_flatMap.mpr ⟨x, hx, heq ▸ hmem⟩) hnewline
        · exact hhead
    obtain ⟨u, hu⟩ := List.head?_eq_some_iff.mp hhead
    have hle : ((L.takeWhile Piece.clean).flatMap Piece.out).count 92 ≤
        ((L.takeWhile Piece.clean).flatMap Piece.source).count 92 :=
      count_flatMap_le fun y hy ↦ (hL y ((List.takeWhile_prefix _).subset hy)).count_le
    rw [← hsplit, hrest] at hcount
    simp only [List.flatMap_append, List.flatMap_cons, List.count_append, hu,
      List.count_cons_self] at hcount
    rw [← hrest, hsplit] at hcount
    omega

/-- A text without control bytes is kept when its pieces write it, but for NULs. -/
theorem Lexed.kept_of_filter {s : Bytes} {L : List Piece} (h : Lexed e s L) (hnul : 0 ∉ s)
    (hout : (L.flatMap Piece.out).filter (· ≠ 0) = s) : Kept e s := by
  have hcount : (L.flatMap Piece.out).count 92 = (L.flatMap Piece.source).count 92 := by
    rw [h.flatMap_source, ← hout, List.count_filter (by decide)]
  have haligned : ∀ x ∈ L, Aligned 92 x.source x.out := by
    intro x hx
    have hone := count_eq_of_flatMap (fun y hy ↦ (h.sound y hy).count_le) hcount x hx
    exact (h.sound x hx).aligned hone
  have hclear : (L.flatMap Piece.out).filter (· ≠ 0) = L.flatMap Piece.out := by
    rw [List.filter_eq_self]
    intro b hb
    obtain ⟨x, hx, hbx⟩ := List.mem_flatMap.mp hb
    have hb : b ≠ 0 := by
      rintro rfl
      have hzero := (h.sound x hx).control 0 hbx (.inl rfl)
      rcases haligned x hx with heq | ⟨u, v, -, hv, -, -⟩
      · apply hnul
        rw [← h.flatMap_source]
        exact List.mem_flatMap.mpr ⟨x, hx, heq ▸ hbx⟩
      · rw [hzero] at hv
        cases hv
    simpa using hb
  apply h.kept
  intro x hx
  refine (eq_of_flatMap_eq haligned ?_ x hx).symm
  rw [← hclear, hout, h.flatMap_source]

/-- What is written for a text that is kept. -/
theorem Kept.echoEn_append {s : Bytes} (h : Kept e s) (u : Bytes) :
    echoEn e (s ++ 92 :: u) = s ++ echoEn e (92 :: u) := by
  rcases lexed_or (e := e) s with ⟨L, hL⟩ | ⟨t, -, rfl, -⟩
  · have hfixed := hL.fixed h
    have hgo : ∀ x ∈ L, (!x.stop) = true := by
      intro x hx
      by_contra hstop
      obtain ⟨hnil, hhead⟩ := (hL.sound x hx).stop (by simpa using hstop)
      rw [← hfixed x hx, hnil] at hhead
      cases hhead
    rw [echoEn, hL.pieces_append, written, List.takeWhile_append_of_pos hgo, List.flatMap_append,
      List.flatMap_congr hfixed, hL.flatMap_source]
    rfl
  · exact absurd List.getLast?_concat h.last

/-- A text stays kept when its end is cut off before a byte that is no digit. -/
theorem Kept.of_append_cons {s u : Bytes} {d : UInt8} (h : Kept e (s ++ d :: u))
    (hoct : isOctal d = false) (hhex : isHex d = false) (hlast : s.getLast? ≠ some 92) :
    Kept e s where
  last := hlast
  escape t ht x hx := by
    obtain ⟨c, ds, v, hsource, rfl, -, -⟩ := source_escape hx
    have hmem : x.source ++ v ++ d :: u ∈ (s ++ d :: u).tails := by
      rw [List.mem_tails] at ht ⊢
      obtain ⟨w, hw⟩ := ht
      exact ⟨w, by rw [← List.append_assoc, hw]⟩
    apply h.escape _ hmem
    rw [hsource] at hx ⊢
    exact (escape_append hoct hhex c (ds ++ v) u).trans hx

/-- The argument for a password prompt: the text twice, each time with an escaped terminator. -/
def twice (s : Bytes) : Bytes := s ++ str "\\n" ++ s ++ str "\\n"

/-- The pieces of any text are sound. -/
theorem sound_of_mem_pieces {s : Bytes} : ∀ x ∈ pieces e s, x.Sound := by
  intro x hx
  apply of_mem_scan (P := Piece.Sound) _ hx
  intro t y n hat
  unfold pieceAt at hat
  split at hat
  · cases hat
  · split at hat
    · next hescape =>
      cases hat
      exact sound_escape hescape
    · cases hat
      exact sound_plain _

-- The pieces of the escaped terminator and of an escaped backslash.
private theorem pieces_newline (u : Bytes) :
    pieces e (92 :: 110 :: u) = ⟨[92, 110], [newline], false⟩ :: pieces e u :=
  pieces_escape (x := ⟨[92, 110], [newline], false⟩) rfl

private theorem pieces_backslash (u : Bytes) :
    pieces e (92 :: 92 :: u) = ⟨[92, 92], [92], false⟩ :: pieces e u :=
  pieces_escape (x := ⟨[92, 92], [92], false⟩) rfl

/-- An escaped backslash. -/
theorem echoEn_backslash (u : Bytes) : echoEn e (92 :: 92 :: u) = 92 :: echoEn e u := by
  rw [echoEn, pieces_backslash]
  rfl

/-- A byte that is no backslash. -/
theorem echoEn_plain {b : UInt8} (hb : b ≠ 92) (u : Bytes) :
    echoEn e (b :: u) = b :: echoEn e u := by
  rw [echoEn, pieces_plain (escape_of_ne hb _)]
  rfl

/-- An escaped terminator. -/
theorem echoEn_newline (u : Bytes) : echoEn e (92 :: 110 :: u) = newline :: echoEn e u := by
  rw [echoEn, pieces_newline]
  rfl

/-- The first line is a text that is kept. -/
theorem Kept.firstLine_twice {s : Bytes} (h : Kept e s) (hnewline : newline ∉ s) :
    firstLine (echoEn e (twice s)) = s := by
  have htwice : twice s = s ++ 92 :: 110 :: (s ++ str "\\n") := by simp [twice, str]
  rw [htwice, h.echoEn_append, echoEn_newline, firstLine,
    List.takeWhile_append_of_pos (forall_ne hnewline), List.takeWhile_cons_of_neg (by simp),
    List.append_nil]

-- The first line of a text of which the pieces are followed by one that ends the line.
private theorem takeWhile_clean_append {L M : List Piece} (hM : M.takeWhile Piece.clean = []) :
    (L ++ M).takeWhile Piece.clean = L.takeWhile Piece.clean := by
  rw [List.takeWhile_append, hM, List.append_nil]
  split
  · next hlen => exact ((List.takeWhile_prefix _).eq_of_length hlen).symm
  · rfl

/-- A text is the first line, but for NULs, only if it is kept. -/
theorem kept_of_firstLine {s : Bytes} (hnewline : newline ∉ s) (hnul : 0 ∉ s)
    (h : (firstLine (echoEn e (twice s))).filter (· ≠ 0) = s) : Kept e s := by
  rw [echoEn, firstLine_written sound_of_mem_pieces] at h
  rcases lexed_or (e := e) s with ⟨L, hL⟩ | ⟨t, L, hs, hL⟩
  · have htwice : twice s = s ++ 92 :: 110 :: (s ++ str "\\n") := by simp [twice, str]
    have hclean : (pieces e (twice s)).takeWhile Piece.clean = L.takeWhile Piece.clean := by
      rw [htwice, hL.pieces_append, pieces_newline]
      exact takeWhile_clean_append rfl
    rw [hclean] at h
    have hall : L.takeWhile Piece.clean = L := by
      apply takeWhile_clean hL.sound (hL.flatMap_source.symm ▸ hnewline)
      rw [hL.flatMap_source, ← h, List.count_filter (by decide)]
    rw [hall] at h
    exact hL.kept_of_filter hnul h
  · have htwice : twice s =
        t ++ 92 :: (92 :: 110 :: (t ++ 92 :: (92 :: 110 :: []))) := by simp [twice, str, hs]
    have hpieces : pieces e (twice s) = L ++ ⟨[92, 92], [92], false⟩ :: plain 110 ::
        (L ++ [⟨[92, 92], [92], false⟩, plain 110]) := by
      rw [htwice, hL.pieces_append, pieces_backslash, pieces_plain (escape_of_ne (by decide) _),
        hL.pieces_append, pieces_backslash, pieces_plain (escape_of_ne (by decide) _)]
      rfl
    rw [hpieces] at h
    by_cases hall : L.takeWhile Piece.clean = L
    · -- The line is never ended, so its last byte is the `n` of the second terminator.
      have hclean : ∀ x ∈ L, x.clean = true := by
        intro x hx
        rw [← hall] at hx
        exact List.mem_takeWhile_imp hx
      have hend : ([⟨[92, 92], [92], false⟩, plain 110] : List Piece).takeWhile Piece.clean =
          [⟨[92, 92], [92], false⟩, plain 110] := by decide
      rw [List.takeWhile_append_of_pos hclean, List.takeWhile_cons_of_pos (by decide),
        List.takeWhile_cons_of_pos (by decide), List.takeWhile_append_of_pos hclean, hend] at h
      have hlast := congrArg List.getLast? h
      rw [hs] at hlast
      simp [plain, List.getLast?_cons] at hlast
    · -- A piece of the text ends the line, and its backslash is lost.
      exfalso
      apply hall
      have hstart : (L ++ ⟨[92, 92], [92], false⟩ :: plain 110 ::
          (L ++ [⟨[92, 92], [92], false⟩, plain 110])).takeWhile Piece.clean =
            L.takeWhile Piece.clean := by
        rw [List.takeWhile_append, if_neg]
        exact fun hlen ↦ hall ((List.takeWhile_prefix _).eq_of_length hlen)
      rw [hstart] at h
      apply takeWhile_clean hL.sound
      · rw [hL.flatMap_source]
        intro hmem
        exact hnewline (hs ▸ List.mem_append_left _ hmem)
      · rw [hL.flatMap_source, ← List.count_filter (p := (· ≠ 0)) (l := (L.takeWhile _).flatMap _)
          (by decide), h, hs, List.count_append]
        omega

/-- The terminator that `echo -e` may add does not change the first line. -/
theorem firstLine_echoE (s : Bytes) : firstLine (echoE e s) = firstLine (echoEn e s) := by
  rw [echoE, echoEn, firstLine, firstLine, List.takeWhile_append]
  split
  · next hlen =>
    have hwhole := (List.takeWhile_prefix _).eq_of_length hlen
    rw [hwhole]
    split <;> simp
  · rfl

end MotionPie.Shell
