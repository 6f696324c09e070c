/-
Marginalia.Proofs.Text.Utf8 — what strict decoding accepts, and where and why it
refuses.

The measure is `encode`, which is the encoding of the core library
(`encodeChar_eq`, `wellFormed_iff`). Decoding accepts what is the encoding of a
text and gives this text (`decode_eq_ok_iff`). Anything else it refuses after the
longest part that is well formed (`decode_eq_error`), and the reason says what
the rest is: `Refuses` says it of the rest alone, without the decoder.

The decoder does not know the codes that it excludes. After E0, ED, F0 and F4 it
narrows the range of the next byte, and that this leaves out overlong forms,
surrogates and what is beyond U+10FFFF, and nothing else, is `Partial.Opens`:
the characters whose encoding begins with the bytes read are those that the
state admits. It holds after a first byte (`opens_start`) and is kept by every
further one (`Opens.push`). Two facts follow from it that reasons depend on:
every unfinished sequence can be finished (`Opens.cutOff`), and a byte out of
range goes on no character (`Opens.not_prefix_of_push`).
-/
import Mathlib
import Marginalia.Text.Utf8

namespace Marginalia.Utf8

/-! ## 1. Encodings -/

/-- How many bytes follow the first one in the encoding of a code. -/
def following (n : Nat) : Nat :=
  if n < 0x80 then 0 else if n < 0x800 then 1 else if n < 0x10000 then 2 else 3

/-- What marks a first byte, by the number of bytes that follow it. -/
def marker : Nat → Nat
  | 0 => 0
  | 1 => 0xC0
  | 2 => 0xE0
  | _ => 0xF0

/-- The first byte of the encoding of a code. -/
def firstByte (n : Nat) : Nat := marker (following n) + n / 64 ^ following n

/-- The continuation byte that has `k` others behind it. -/
def continuation (n k : Nat) : Nat := 0x80 + n / 64 ^ k % 64

/-- The last `k` bytes of the encoding of a code. -/
def lastBytes (n : Nat) : Nat → List UInt8
  | 0 => []
  | k + 1 => (continuation n k).toUInt8 :: lastBytes n k

theorem firstByte_cases (n : Nat) :
    following n = 0 ∧ firstByte n = n ∧ n < 0x80 ∨
      following n = 1 ∧ firstByte n = 0xC0 + n / 64 ∧ 0x80 ≤ n ∧ n < 0x800 ∨
      following n = 2 ∧ firstByte n = 0xE0 + n / 4096 ∧ 0x800 ≤ n ∧ n < 0x10000 ∨
      following n = 3 ∧ firstByte n = 0xF0 + n / 262144 ∧ 0x10000 ≤ n := by
  simp only [firstByte, following]
  split_ifs
  all_goals simp only [marker]; grind

theorem firstByte_lt {n : Nat} (h : n.isValidChar) : firstByte n < 256 := by
  have hcases := firstByte_cases n
  unfold Nat.isValidChar at h
  omega

theorem le_continuation (n k : Nat) : 0x80 ≤ continuation n k := Nat.le_add_right _ _

theorem continuation_le (n k : Nat) : continuation n k ≤ 0xBF := by
  unfold continuation
  omega

theorem encodeChar_eq_cons (c : Char) :
    encodeChar c = (firstByte c.toNat).toUInt8 :: lastBytes c.toNat (following c.toNat) := by
  simp only [encodeChar, firstByte, following]
  split_ifs
  all_goals simp [marker, lastBytes, continuation]

theorem toUInt8_eq_iff {m : Nat} {b : UInt8} (h : m < 256) : m.toUInt8 = b ↔ m = b.toNat := by
  rw [← UInt8.toNat_inj, Nat.toUInt8, UInt8.toNat_ofNat', Nat.mod_eq_of_lt h]

theorem cons_eq_lastBytes_iff {n k : Nat} {b : UInt8} {tail : List UInt8} :
    b :: tail = lastBytes n (k + 1) ↔ continuation n k = b.toNat ∧ tail = lastBytes n k := by
  rw [lastBytes, List.cons.injEq, eq_comm (a := b),
    toUInt8_eq_iff (Nat.lt_of_le_of_lt (continuation_le n k) (by decide))]

/-- The codes whose encoding has a given first byte, and what follows it. -/
theorem exists_encodeChar_eq_cons {n : Nat} {b : UInt8} {tail : List UInt8} :
    (∃ c : Char, c.toNat = n ∧ encodeChar c = b :: tail) ↔
      n.isValidChar ∧ firstByte n = b.toNat ∧ tail = lastBytes n (following n) := by
  constructor
  · rintro ⟨c, rfl, h⟩
    have hvalid : c.toNat.isValidChar := c.valid
    rw [encodeChar_eq_cons, List.cons.injEq, toUInt8_eq_iff (firstByte_lt hvalid)] at h
    exact ⟨hvalid, h.1, h.2.symm⟩
  · rintro ⟨hn, hb, rfl⟩
    have hcode : (Char.ofNatAux n hn).toNat = n := rfl
    refine ⟨Char.ofNatAux n hn, hcode, ?_⟩
    rw [encodeChar_eq_cons, hcode, (toUInt8_eq_iff (firstByte_lt hn)).mpr hb]

theorem encodeChar_ofNat {b : UInt8} (h : b < 0x80) : encodeChar (Char.ofNat b.toNat) = [b] := by
  have hb : b.toNat < 0x80 := h
  have hcases := firstByte_cases b.toNat
  have hfollowing : following b.toNat = 0 := by omega
  obtain ⟨c, hcode, hc⟩ := (exists_encodeChar_eq_cons (b := b)).mpr
    ⟨.inl (Nat.lt_trans hb (by decide)), by omega, by rw [hfollowing]⟩
  rw [← hcode, Char.ofNat_toNat, hc]
  rfl

/-- The encoding is that of the core library. -/
theorem encodeChar_eq (c : Char) : encodeChar c = String.utf8EncodeChar c := by
  have hbound : c.toNat < 0x110000 := by
    rcases c.valid with h | h
    · exact Nat.lt_trans h (by decide)
    · exact h.2
  have hbyte : ∀ {m k : Nat}, m = k → m.toUInt8 = UInt8.ofNat k := congrArg UInt8.ofNat
  simp only [encodeChar, String.utf8EncodeChar, Char.toNat] at hbound ⊢
  split_ifs
  all_goals first
    | omega
    | simp only [List.cons.injEq, and_true]
  · exact ⟨hbyte (by omega), hbyte (by omega)⟩
  · exact ⟨hbyte (by omega), hbyte (by omega), hbyte (by omega)⟩
  · exact ⟨hbyte (by omega), hbyte (by omega), hbyte (by omega), hbyte (by omega)⟩

theorem encodeChar_ne_nil (c : Char) : encodeChar c ≠ [] := by
  rw [encodeChar_eq]
  exact String.utf8EncodeChar_ne_nil

/-- No encoding begins another one. -/
theorem eq_of_encodeChar_prefix {c d : Char} {bytes : List UInt8} (hc : encodeChar c <+: bytes)
    (hd : encodeChar d <+: bytes) : c = d := by
  have hdecode : ∀ {c : Char}, encodeChar c <+: bytes →
      bytes.toByteArray.utf8DecodeChar? 0 = some c := by
    rintro c ⟨rest, rfl⟩
    rw [encodeChar_eq, List.toByteArray_append, ByteArray.utf8DecodeChar?_utf8EncodeChar_append]
  exact Option.some.inj ((hdecode hc).symm.trans (hdecode hd))

@[simp] theorem encode_cons (c : Char) (t : Text) : encode (c :: t) = encodeChar c ++ encode t :=
  List.flatMap_cons

@[simp] theorem encode_append (s t : Text) : encode (s ++ t) = encode s ++ encode t :=
  List.flatMap_append

/-- What is left of an encoding that begins with another one, if it is all that can be read. -/
theorem exists_append_of_encode {s t : Text} {x y : List UInt8}
    (hy : ∀ c, ¬encodeChar c <+: y) (h : encode s ++ x = encode t ++ y) :
    ∃ u, t = s ++ u ∧ x = encode u ++ y := by
  induction s generalizing t with
  | nil => exact ⟨t, rfl, h⟩
  | cons c s ih =>
    rw [encode_cons, List.append_assoc] at h
    cases t with
    | nil => exact (hy c ⟨_, h⟩).elim
    | cons d t =>
      rw [encode_cons, List.append_assoc] at h
      obtain rfl : c = d := eq_of_encodeChar_prefix ⟨_, h⟩ ⟨_, rfl⟩
      obtain ⟨u, rfl, hx⟩ := ih (List.append_cancel_left h)
      exact ⟨u, rfl, hx⟩

theorem encode_injective : Function.Injective encode := by
  intro s t h
  have hnil : ∀ c, ¬encodeChar c <+: [] := fun c hc =>
    encodeChar_ne_nil c (List.prefix_nil.mp hc)
  obtain ⟨u, rfl, hu⟩ := exists_append_of_encode hnil (congrArg (· ++ []) h)
  cases u with
  | nil => rw [List.append_nil]
  | cons c u =>
    rw [encode_cons, List.append_assoc] at hu
    exact (hnil c ⟨_, hu.symm⟩).elim

/-- Whether bytes are the encoding of a text. -/
def WellFormed (bytes : List UInt8) : Prop := ∃ t, encode t = bytes

/-- Well-formed is what the core library takes for UTF-8. -/
theorem wellFormed_iff {bytes : List UInt8} :
    WellFormed bytes ↔ bytes.toByteArray.IsValidUTF8 := by
  have hencode : ∀ t : Text, (encode t).toByteArray = t.utf8Encode := fun t => by
    rw [List.utf8Encode, encode, funext encodeChar_eq]
  constructor
  · rintro ⟨t, rfl⟩
    exact ⟨t, hencode t⟩
  · rintro ⟨t, ht⟩
    refine ⟨t, ?_⟩
    rw [← hencode] at ht
    have hdata := congrArg (fun b => b.data.toList) ht
    simpa using hdata.symm

/-! ## 2. What is refused -/

/-- Whether a byte begins the encoding of a character. -/
def Begins (b : UInt8) : Prop := ∃ c tail, encodeChar c = b :: tail

/-- Whether bytes are the beginning of the encoding of a character, without its end. -/
def CutOff (bytes : List UInt8) : Prop :=
  bytes ≠ [] ∧ ∃ c tail, tail ≠ [] ∧ encodeChar c = bytes ++ tail

theorem Reason.message_inj {a b : Reason} : a.message = b.message ↔ a = b := by
  cases a <;> cases b <;> decide

/-- Whether bytes that are read from the start of a character are refused for a reason. -/
def Refuses : Reason → List UInt8 → Prop
  | .startByte, bytes => ∃ b tail, bytes = b :: tail ∧ ¬Begins b
  | .endOfData, bytes => CutOff bytes
  | .continuationByte, bytes =>
    (∃ b tail, bytes = b :: tail ∧ Begins b) ∧ ¬CutOff bytes ∧ ∀ c, ¬encodeChar c <+: bytes

theorem CutOff.not_prefix {bytes : List UInt8} (h : CutOff bytes) (c : Char) :
    ¬encodeChar c <+: bytes := by
  obtain ⟨-, d, tail, htail, hd⟩ := h
  intro hc
  obtain rfl : c = d := eq_of_encodeChar_prefix (hc.trans ⟨tail, hd.symm⟩) (List.prefix_refl _)
  have hlength := hc.length_le
  rw [hd, List.length_append] at hlength
  exact htail (List.eq_nil_of_length_eq_zero (by omega))

theorem CutOff.begins {b : UInt8} {bytes : List UInt8} (h : CutOff (b :: bytes)) : Begins b := by
  obtain ⟨-, c, tail, -, hc⟩ := h
  exact ⟨c, bytes ++ tail, hc⟩

namespace Refuses

variable {reason : Reason} {bytes : List UInt8}

theorem ne_nil (h : Refuses reason bytes) : bytes ≠ [] := by
  rintro rfl
  cases reason with
  | startByte => obtain ⟨b, tail, h, -⟩ := h; cases h
  | endOfData => exact h.1 rfl
  | continuationByte => obtain ⟨⟨b, tail, h, -⟩, -⟩ := h; cases h

theorem not_prefix (h : Refuses reason bytes) (c : Char) : ¬encodeChar c <+: bytes := by
  cases reason with
  | startByte =>
    obtain ⟨b, tail, rfl, hb⟩ := h
    intro hc
    obtain ⟨first, rest, hfirst⟩ := List.exists_cons_of_ne_nil (encodeChar_ne_nil c)
    rw [hfirst, List.cons_prefix_cons] at hc
    obtain rfl := hc.1
    exact hb ⟨c, rest, hfirst⟩
  | endOfData => exact CutOff.not_prefix h c
  | continuationByte => exact h.2.2 c

theorem startByte_iff (h : Refuses reason bytes) :
    reason = .startByte ↔ ∃ b, bytes.head? = some b ∧ ¬Begins b := by
  cases reason with
  | startByte =>
    obtain ⟨b, tail, rfl, hb⟩ := h
    exact iff_of_true rfl ⟨b, rfl, hb⟩
  | endOfData =>
    obtain ⟨b, tail, rfl⟩ := List.exists_cons_of_ne_nil h.ne_nil
    refine iff_of_false nofun ?_
    rintro ⟨_, hhead, hb⟩
    obtain rfl := Option.some.inj hhead
    exact hb (CutOff.begins h)
  | continuationByte =>
    obtain ⟨⟨b, tail, rfl, hb⟩, -⟩ := h
    refine iff_of_false nofun ?_
    rintro ⟨_, hhead, hnot⟩
    obtain rfl := Option.some.inj hhead
    exact hnot hb

theorem endOfData_iff (h : Refuses reason bytes) : reason = .endOfData ↔ CutOff bytes := by
  cases reason with
  | startByte =>
    obtain ⟨b, tail, rfl, hb⟩ := h
    exact iff_of_false nofun fun hcut => hb hcut.begins
  | endOfData => exact iff_of_true rfl h
  | continuationByte => exact iff_of_false nofun h.2.1

theorem continuationByte_iff (h : Refuses reason bytes) : reason = .continuationByte ↔
    ¬(∃ b, bytes.head? = some b ∧ ¬Begins b) ∧ ¬CutOff bytes := by
  rw [← h.startByte_iff, ← h.endOfData_iff]
  cases reason with
  | startByte => exact iff_of_false nofun fun hnot => hnot.1 rfl
  | endOfData => exact iff_of_false nofun fun hnot => hnot.2 rfl
  | continuationByte => exact iff_of_true rfl ⟨nofun, nofun⟩

end Refuses

/-! ## 3. Unfinished sequences -/

namespace Partial

/-- Whether a code may be what an unfinished sequence stands for. -/
def Admits (p : Partial) (n : Nat) : Prop :=
  n / 64 ^ p.missing = p.value ∧ p.low ≤ continuation n (p.missing - 1) ∧
    continuation n (p.missing - 1) ≤ p.high

/-- Whether an unfinished sequence is what is known after some bytes, so that the encodings that
begin with these are those of the codes it admits. -/
structure Opens (p : Partial) (front : List UInt8) : Prop where
  ne_nil : front ≠ []
  read_eq : p.read = front.length
  missing_pos : 0 < p.missing
  le_low : 0x80 ≤ p.low
  low_le_high : p.low ≤ p.high
  high_le : p.high ≤ 0xBF
  encodes : ∀ n tail, (∃ c : Char, c.toNat = n ∧ encodeChar c = front ++ tail) ↔
    p.Admits n ∧ tail = lastBytes n p.missing

variable {p q : Partial} {front : List UInt8} {b : UInt8}

/-- The state after a first byte admits the codes whose encoding has this first byte. -/
theorem opens_start (h : start? b = some p) : p.Opens [b] := by
  suffices hadmits : p.read = 1 ∧ 0 < p.missing ∧ 0x80 ≤ p.low ∧ p.low ≤ p.high ∧ p.high ≤ 0xBF ∧
      ∀ n, (p.Admits n ↔ n.isValidChar ∧ firstByte n = b.toNat) ∧
        (firstByte n = b.toNat → n.isValidChar → following n = p.missing) by
    obtain ⟨hread, hmissing, hlow, hrange, hhigh, hadmits⟩ := hadmits
    refine ⟨List.cons_ne_nil _ _, hread, hmissing, hlow, hrange, hhigh, fun n tail => ?_⟩
    rw [List.singleton_append, exists_encodeChar_eq_cons, (hadmits n).1, and_assoc]
    refine and_congr_right fun hn => and_congr_right fun hb => ?_
    rw [(hadmits n).2 hb hn]
  unfold start? at h
  simp only at h
  split_ifs at h
  -- One case for each range of first bytes. What the next byte may not be after E0 and F0 would be
  -- overlong, after ED a surrogate, after F4 too large.
  all_goals
    obtain rfl := Option.some.inj h
    refine ⟨rfl, by simp, by simp, by simp, by simp, fun n => ?_⟩
    have hcases := firstByte_cases n
    simp only [Admits, continuation, Nat.isValidChar, Nat.reduceSub, Nat.reducePow, Nat.div_one]
    omega

theorem not_begins_of_start? (hb : 0x80 ≤ b) (h : start? b = none) : ¬Begins b := by
  rintro ⟨c, tail, hc⟩
  obtain ⟨hn, hfirst, -⟩ := exists_encodeChar_eq_cons.mp ⟨c, rfl, hc⟩
  have hcases := firstByte_cases c.toNat
  have hb : 0x80 ≤ b.toNat := hb
  unfold start? at h
  simp only at h
  split_ifs at h
  unfold Nat.isValidChar at hn
  omega

theorem push?_eq_some (h : p.push? b = some q) : p.low ≤ b.toNat ∧ b.toNat ≤ p.high ∧
    q = ⟨p.first, p.read + 1, p.value * 64 + (b.toNat - 0x80), p.missing - 1, 0x80, 0xBF⟩ := by
  unfold push? at h
  simp only at h
  split_ifs at h with hrange
  exact ⟨hrange.1, hrange.2, (Option.some.inj h).symm⟩

theorem push?_eq_none (h : p.push? b = none) : ¬(p.low ≤ b.toNat ∧ b.toNat ≤ p.high) := by
  unfold push? at h
  simp only at h
  split_ifs at h with hrange
  exact hrange

namespace Opens

/-- With one more byte, the codes are those whose next six bits this byte has. -/
theorem encodes_push (h : p.Opens front) (hpush : p.push? b = some q) (n : Nat)
    (tail : List UInt8) : (∃ c : Char, c.toNat = n ∧ encodeChar c = front ++ [b] ++ tail) ↔
      n / 64 ^ q.missing = q.value ∧ tail = lastBytes n q.missing := by
  obtain ⟨hlow, hhigh, rfl⟩ := push?_eq_some hpush
  obtain ⟨k, hk⟩ := Nat.exists_eq_succ_of_ne_zero h.missing_pos.ne'
  have hle_low := h.le_low
  have hhigh_le := h.high_le
  rw [List.append_assoc, List.singleton_append, h.encodes, Admits, hk, cons_eq_lastBytes_iff]
  simp only [Nat.succ_sub_one, continuation, Nat.pow_succ, ← Nat.div_div_eq_div_mul]
  rw [← and_assoc]
  refine and_congr_left fun _ => ?_
  omega

theorem push (h : p.Opens front) (hpush : p.push? b = some q) (hmissing : q.missing ≠ 0) :
    q.Opens (front ++ [b]) := by
  have hencodes := h.encodes_push hpush
  obtain ⟨-, -, hq⟩ := push?_eq_some hpush
  have hlow : q.low = 0x80 := by rw [hq]
  have hhigh : q.high = 0xBF := by rw [hq]
  refine ⟨by simp, ?_, Nat.pos_of_ne_zero hmissing, hlow.ge, ?_, hhigh.le, fun n tail => ?_⟩
  · rw [hq, List.length_append, List.length_singleton, h.read_eq]
  · rw [hlow, hhigh]
    decide
  · rw [hencodes, Admits, hlow, hhigh]
    simp only [le_continuation, continuation_le, and_true]

/-- The last byte of a sequence gives the encoding of the value. -/
theorem encodeChar_of_push (h : p.Opens front) (hpush : p.push? b = some q)
    (hmissing : q.missing = 0) : encodeChar (Char.ofNat q.value) = front ++ [b] := by
  obtain ⟨c, hcode, hc⟩ := (h.encodes_push hpush q.value []).mpr (by simp [hmissing, lastBytes])
  rw [← hcode, Char.ofNat_toNat, hc, List.append_nil]

theorem not_prefix_of_push (h : p.Opens front) (hpush : p.push? b = none) (c : Char) :
    ¬front ++ [b] <+: encodeChar c := by
  rintro ⟨tail, hc⟩
  rw [List.append_assoc, List.singleton_append] at hc
  obtain ⟨⟨-, hrange⟩, htail⟩ := (h.encodes c.toNat (b :: tail)).mp ⟨c, rfl, hc.symm⟩
  obtain ⟨k, hk⟩ := Nat.exists_eq_succ_of_ne_zero h.missing_pos.ne'
  rw [hk, cons_eq_lastBytes_iff] at htail
  rw [hk, Nat.succ_sub_one, htail.1] at hrange
  exact push?_eq_none hpush hrange

/-- Every unfinished sequence can be finished. -/
theorem cutOff (h : p.Opens front) : CutOff front := by
  refine ⟨h.ne_nil, ?_⟩
  obtain ⟨k, hk⟩ := Nat.exists_eq_succ_of_ne_zero h.missing_pos.ne'
  have hlow := h.le_low
  have hrange := h.low_le_high
  have hhigh := h.high_le
  -- The next byte is the least one in range, and the bits below are zero.
  let n := p.value * 64 ^ (k + 1) + (p.low - 0x80) * 64 ^ k
  have hdigits : n / 64 ^ k = p.value * 64 + (p.low - 0x80) := by
    show (p.value * 64 ^ (k + 1) + (p.low - 0x80) * 64 ^ k) / 64 ^ k = _
    rw [Nat.pow_succ', ← Nat.mul_assoc, ← Nat.add_mul,
      Nat.mul_div_cancel _ (Nat.pow_pos (by decide))]
  have hadmits : p.Admits n := by
    simp only [Admits, continuation, hk, Nat.succ_sub_one, Nat.pow_succ,
      ← Nat.div_div_eq_div_mul, hdigits]
    omega
  obtain ⟨c, -, hc⟩ := (h.encodes n _).mpr ⟨hadmits, rfl⟩
  refine ⟨c, _, ?_, hc⟩
  rw [hk, lastBytes]
  exact List.cons_ne_nil _ _

theorem refuses_of_push (h : p.Opens front) (hpush : p.push? b = none) (bytes : List UInt8) :
    Refuses .continuationByte (front ++ [b] ++ bytes) := by
  refine ⟨?begins, ?notCutOff, fun c hc => ?notPrefix⟩
  case begins =>
    obtain ⟨first, rest, hfront⟩ := List.exists_cons_of_ne_nil h.ne_nil
    rw [hfront]
    exact ⟨first, _, rfl, (hfront ▸ h.cutOff).begins⟩
  case notCutOff =>
    rintro ⟨-, c, tail, -, hc⟩
    rw [List.append_assoc] at hc
    exact h.not_prefix_of_push hpush c ⟨_, hc.symm⟩
  case notPrefix =>
    have hlonger := h.not_prefix_of_push hpush c
    rcases List.prefix_or_prefix_of_prefix hc (List.prefix_append _ bytes) with hshorter | hprefix
    · rcases List.prefix_concat_iff.mp hshorter with heq | hfront
      · exact hlonger (heq ▸ List.prefix_refl _)
      · exact h.cutOff.not_prefix c hfront
    · exact hlonger hprefix

end Opens

end Partial

/-! ## 4. Decoding -/

/-- What reading comes to at the start of a character: the character, and more; an unfinished
sequence at the end; or a refusal at this place. -/
inductive Step (acc : Text) (offset : Nat) : List UInt8 → Except Refusal Progress → Prop where
  | character {c : Char} {rest : List UInt8} : Step acc offset (encodeChar c ++ rest)
      (run (c :: acc) (offset + (encodeChar c).length) none rest)
  | cutOff {bytes : List UInt8} {p : Partial} : CutOff bytes → p.read = bytes.length →
      Step acc offset bytes (.ok ⟨acc.reverse, some p⟩)
  | refused {bytes : List UInt8} {r : Refusal} : Refuses r.reason bytes → r.offset = offset →
      Step acc offset bytes (.error r)

variable {acc : Text} {offset : Nat}

theorem step_of_opens {p : Partial} {front : List UInt8} (h : p.Opens front)
    (bytes : List UInt8) : Step acc offset (front ++ bytes) (run acc offset (some p) bytes) := by
  induction bytes generalizing p front with
  | nil =>
    rw [List.append_nil, run]
    exact .cutOff h.cutOff h.read_eq
  | cons b bytes ih =>
    rw [List.append_cons]
    cases hpush : p.push? b with
    | none =>
      simp only [run, hpush]
      exact .refused (h.refuses_of_push hpush bytes) rfl
    | some q =>
      simp only [run, hpush]
      split
      next hmissing =>
        have hc := h.encodeChar_of_push hpush hmissing
        have hread : q.read = (encodeChar (Char.ofNat q.value)).length := by
          rw [hc, (Partial.push?_eq_some hpush).2.2, List.length_append, h.read_eq]
          rfl
        rw [← hc, hread]
        exact .character
      next hmissing => exact ih (h.push hpush hmissing)

theorem step_run {bytes : List UInt8} (h : bytes ≠ []) :
    Step acc offset bytes (run acc offset none bytes) := by
  obtain ⟨b, rest, rfl⟩ := List.exists_cons_of_ne_nil h
  rw [run]
  split
  next hb =>
    have hstep : Step acc offset (encodeChar (Char.ofNat b.toNat) ++ rest) _ := .character
    rwa [encodeChar_ofNat hb] at hstep
  next hb =>
    split
    next hstart =>
      have hb : 0x80 ≤ b := UInt8.not_lt.mp hb
      exact .refused ⟨b, rest, rfl, Partial.not_begins_of_start? hb hstart⟩ rfl
    next p hstart => exact step_of_opens (Partial.opens_start hstart) rest

/-- Reading takes the characters that are there, and stops at the end or at what is refused. -/
theorem run_eq (acc : Text) (offset : Nat) (bytes : List UInt8) :
    ∃ t rest, bytes = encode t ++ rest ∧
    (rest = [] ∧ run acc offset none bytes = .ok ⟨acc.reverse ++ t, none⟩ ∨
      CutOff rest ∧ (∃ p, p.read = rest.length ∧
        run acc offset none bytes = .ok ⟨acc.reverse ++ t, some p⟩) ∨
      ∃ r, Refuses r.reason rest ∧ r.offset = offset + (encode t).length ∧
        run acc offset none bytes = .error r) := by
  induction hn : bytes.length using Nat.strong_induction_on generalizing bytes acc offset with
  | h n ih =>
    by_cases hbytes : bytes = []
    · subst hbytes
      exact ⟨[], [], rfl, .inl ⟨rfl, by rw [run, List.append_nil]⟩⟩
    have hstep : Step acc offset bytes (run acc offset none bytes) := step_run hbytes
    generalize run acc offset none bytes = result at hstep ⊢
    cases hstep with
    | @character c rest =>
      have hlength := List.length_pos_of_ne_nil (encodeChar_ne_nil c)
      rw [List.length_append] at hn
      obtain ⟨t, left, rfl, hleft⟩ := ih rest.length (by omega) (c :: acc)
        (offset + (encodeChar c).length) rest rfl
      refine ⟨c :: t, left, by rw [encode_cons, List.append_assoc], ?_⟩
      rw [encode_cons, List.length_append, ← Nat.add_assoc]
      rwa [List.reverse_cons, List.append_assoc, List.singleton_append] at hleft
    | @cutOff _ p hcut hread =>
      exact ⟨[], bytes, rfl, .inr (.inl ⟨hcut, p, hread, by rw [List.append_nil]⟩)⟩
    | @refused _ r hrefuses hoffset =>
      exact ⟨[], bytes, rfl, .inr (.inr ⟨r, hrefuses, hoffset, rfl⟩)⟩

/-- Bytes are the characters that are there, and something that is refused if anything is left. -/
theorem decode_eq (bytes : List UInt8) : ∃ t rest, bytes = encode t ++ rest ∧
    (rest = [] ∧ decode bytes = .ok t ∨
      ∃ r, Refuses r.reason rest ∧ r.offset = (encode t).length ∧ decode bytes = .error r) := by
  obtain ⟨t, rest, hbytes, h⟩ := run_eq [] 0 bytes
  refine ⟨t, rest, hbytes, ?_⟩
  unfold decode
  rcases h with ⟨hrest, hrun⟩ | ⟨hcut, p, hread, hrun⟩ | ⟨r, hrefuses, hoffset, hrun⟩
  · rw [hrun]
    exact .inl ⟨hrest, rfl⟩
  · rw [hrun]
    refine .inr ⟨⟨.endOfData, bytes.length - p.read, p.read, p.first⟩, hcut, ?_, rfl⟩
    rw [hread, hbytes, List.length_append, Nat.add_sub_cancel]
  · rw [hrun]
    exact .inr ⟨r, hrefuses, by rw [hoffset, Nat.zero_add], rfl⟩

theorem decode_encode (t : Text) : decode (encode t) = .ok t := by
  obtain ⟨s, rest, hbytes, ⟨hrest, hdecode⟩ | ⟨r, hrefuses, -⟩⟩ := decode_eq (encode t)
  · rw [hrest, List.append_nil] at hbytes
    rwa [encode_injective hbytes] at hdecode ⊢
  · rw [← List.append_nil (encode t)] at hbytes
    obtain ⟨u, -, hrest⟩ := exists_append_of_encode hrefuses.not_prefix hbytes
    exact (hrefuses.ne_nil (List.append_eq_nil_iff.mp hrest.symm).2).elim

theorem decode_eq_ok_iff {bytes : List UInt8} {t : Text} :
    decode bytes = .ok t ↔ encode t = bytes := by
  constructor
  · intro h
    obtain ⟨s, rest, hbytes, ⟨hrest, hdecode⟩ | ⟨r, -, -, hdecode⟩⟩ := decode_eq bytes
    · obtain rfl := Except.ok.inj (hdecode.symm.trans h)
      rw [hbytes, hrest, List.append_nil]
    · rw [hdecode] at h
      cases h
  · rintro rfl
    exact decode_encode t

/-- Decoding stops after the longest part that is well formed, at what is refused. -/
theorem decode_eq_error {bytes : List UInt8} {r : Refusal} (h : decode bytes = .error r) :
    WellFormed (bytes.take r.offset) ∧ (∀ n, WellFormed (bytes.take n) → n ≤ r.offset) ∧
      Refuses r.reason (bytes.drop r.offset) := by
  obtain ⟨t, rest, hbytes, ⟨-, hdecode⟩ | ⟨r', hrefuses, hoffset, hdecode⟩⟩ := decode_eq bytes
  · rw [hdecode] at h
    cases h
  obtain rfl := Except.error.inj (hdecode.symm.trans h)
  have hrest := List.length_pos_of_ne_nil hrefuses.ne_nil
  refine ⟨⟨t, ?_⟩, ?_, ?_⟩
  · rw [hbytes, hoffset, List.take_left]
  · rintro n ⟨s, hs⟩
    have hsplit : encode s ++ bytes.drop n = encode t ++ rest := by
      rw [hs, List.take_append_drop, hbytes]
    obtain ⟨u, rfl, -⟩ := exists_append_of_encode hrefuses.not_prefix hsplit
    have hlength := congrArg List.length hs
    have htotal := congrArg List.length hbytes
    rw [List.length_take] at hlength
    rw [List.length_append] at htotal
    rw [encode_append, List.length_append] at hoffset htotal
    omega
  · rwa [hbytes, hoffset, List.drop_left]

/-- A character, then one beyond U+10FFFF: its second byte is out of the range after F4. -/
example : decode [0x41, 0xF4, 0x90, 0x80, 0x80] = .error ⟨.continuationByte, 1, 1, 0xF4⟩ := rfl

end Marginalia.Utf8
