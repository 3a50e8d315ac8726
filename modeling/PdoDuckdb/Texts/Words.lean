import PdoDuckdb.Texts.Temporal
import PdoDuckdb.Library.Collecting
import PdoDuckdb.Library.Pointwise

namespace PdoDuckdb.Texts

open Byte Library Nested

section Uuids

variable {width n : ℕ} {s : List Byte}

/-- `DUCKDB_TYPE_UUID` of `pdo_duckdb_fast_col_to_string`, which takes 36 of the 64 bytes. -/
def uuidToString (upper lower : UInt64) : Printed :=
  (snprintf 64 64 [] (uuidText upper lower)).join.bind fun buf ↦ some (some (buf.take 36))

def hexValue (c : Byte) : ℕ := if isDigit c then c.toNat - 0x30 else c.toNat - 0x61 + 10

def hexesValue (s : List Byte) : ℕ := s.foldl (fun n c ↦ 16 * n + hexValue c) 0

/-- A number of `width` digits in base 16. -/
def readHex (width : ℕ) : Reader Byte ℕ := (Reader.next width).map hexesValue

def readUuid : Reader Byte (UInt64 × UInt64) :=
  (readHex 8).andThen fun a ↦ (Reader.symbol minus).andThen fun _ ↦
    (readHex 4).andThen fun b ↦ (Reader.symbol minus).andThen fun _ ↦
      (readHex 4).andThen fun c ↦ (Reader.symbol minus).andThen fun _ ↦
        (readHex 4).andThen fun d ↦ (Reader.symbol minus).andThen fun _ ↦
          (readHex 12).map fun e ↦
            (UInt64.ofNat (a * 0x100000000 + b * 0x10000 + c) ^^^ 0x8000000000000000,
              UInt64.ofNat (d * 0x1000000000000 + e))

theorem length_hexDigits (width n : ℕ) : (hexDigits width n).length = width := by
  unfold hexDigits
  rw [List.length_map, List.length_range]

theorem hexDigits_succ (width n : ℕ) :
    hexDigits (width + 1) n = hexDigits width (n / 16) ++ [hexDigit (n % 16)] := by
  unfold hexDigits
  rw [List.range_succ, List.map_append, List.map_singleton]
  congr 1
  · refine List.map_congr_left fun i hi ↦ ?_
    have hlt := List.mem_range.mp hi
    rw [show width + 1 - 1 - i = (width - 1 - i) + 1 by omega, Nat.pow_succ', Nat.div_div_eq_div_mul]
  · rw [Nat.add_sub_cancel, Nat.sub_self, Nat.pow_zero, Nat.div_one]

theorem hexValue_hexDigit (h : n < 16) : hexValue (hexDigit n) = n := by
  interval_cases n <;> rfl

theorem hexesValue_hexDigits (width n : ℕ) : hexesValue (hexDigits width n) = n % 16 ^ width := by
  induction width generalizing n with
  | zero => exact (Nat.mod_one n).symm
  | succ width ih =>
    have hprefix := ih (n / 16)
    have hlast : hexValue (hexDigit (n % 16)) = n % 16 := hexValue_hexDigit (Nat.mod_lt n (by decide))
    unfold hexesValue at hprefix ⊢
    rw [hexDigits_succ, List.foldl_append, hprefix, List.foldl_cons, List.foldl_nil, hlast, Nat.pow_succ',
      Nat.mod_mul]
    omega

theorem reads_hex {D : Byte → Prop} (width n : ℕ) :
    Reads D (readHex width) (hexDigits width n) (n % 16 ^ width) := by
  have h := (Reads.next (D := D) (length_hexDigits width n)).map hexesValue
  rwa [hexesValue_hexDigits] at h

/-- A group of digits with the dash after it. -/
theorem reads_group {D : Byte → Prop} {β : Type} {f : ℕ → Reader Byte β} {b : β} (width n : ℕ)
    (hf : Reads D (f (n % 16 ^ width)) s b) :
    Reads D ((readHex width).andThen fun n ↦ (Reader.symbol minus).andThen fun _ ↦ f n)
      (hexDigits width n ++ minus :: s) b := by
  refine (reads_hex width n).andThen_any ?_
  exact (Reads.symbol minus).andThen_any (t := s) hf

theorem toNat_shiftRight (a : UInt64) {k : ℕ} (hk : k < 64) : (a >>> UInt64.ofNat k).toNat = a.toNat / 2 ^ k := by
  rw [UInt64.toNat_shiftRight, UInt64.toNat_ofNat', Nat.mod_eq_of_lt (Nat.lt_trans hk (by decide)),
    Nat.mod_eq_of_lt hk, Nat.shiftRight_eq_div_pow]

/-- A word in groups of 8, 4 and 4 digits. -/
theorem upper_groups (h : n < 2 ^ 64) :
    n / 2 ^ 32 % 16 ^ 8 * 0x100000000 + n / 2 ^ 16 % 16 ^ 4 * 0x10000 + n % 16 ^ 4 = n := by
  omega

/-- A word in groups of 4 and 12 digits. -/
theorem lower_groups (h : n < 2 ^ 64) : n / 2 ^ 48 % 16 ^ 4 * 0x1000000000000 + n % 16 ^ 12 = n := by
  omega

theorem reads_uuid (upper lower : UInt64) :
    Reads (fun _ ↦ False) readUuid (uuidText upper lower) (upper, lower) := by
  have hflip : upper ^^^ 0x8000000000000000 ^^^ 0x8000000000000000 = upper := by
    rw [UInt64.xor_assoc, UInt64.xor_self, UInt64.xor_zero]
  unfold uuidText readUuid
  dsimp only
  generalize hword : upper ^^^ 0x8000000000000000 = word at hflip
  have hw := word.toNat_lt
  have hl := lower.toNat_lt
  have h32 : (word >>> 32).toNat = word.toNat / 2 ^ 32 := toNat_shiftRight word (by decide)
  have h16 : (word >>> 16).toNat = word.toNat / 2 ^ 16 := toNat_shiftRight word (by decide)
  have h48 : (lower >>> 48).toNat = lower.toNat / 2 ^ 48 := toNat_shiftRight lower (by decide)
  apply reads_group
  apply reads_group
  apply reads_group
  apply reads_group
  have hlast := (reads_hex (D := fun _ ↦ False) 12 lower.toNat).map fun e ↦
    (UInt64.ofNat ((word >>> 32).toNat % 16 ^ 8 * 0x100000000 + (word >>> 16).toNat % 16 ^ 4 * 0x10000 +
        word.toNat % 16 ^ 4) ^^^ 0x8000000000000000,
      UInt64.ofNat ((lower >>> 48).toNat % 16 ^ 4 * 0x1000000000000 + e))
  have hvalue : (UInt64.ofNat ((word >>> 32).toNat % 16 ^ 8 * 0x100000000 + (word >>> 16).toNat % 16 ^ 4 * 0x10000 +
      word.toNat % 16 ^ 4) ^^^ 0x8000000000000000,
      UInt64.ofNat ((lower >>> 48).toNat % 16 ^ 4 * 0x1000000000000 + lower.toNat % 16 ^ 12)) = (upper, lower) := by
    rw [h32, h16, h48, upper_groups hw, lower_groups hl, UInt64.ofNat_toNat, UInt64.ofNat_toNat, hflip]
  exact (congrArg (Reads _ _ _) hvalue).mp hlast

theorem uuidToString_eq (upper lower : UInt64) :
    uuidToString upper lower = some (some (uuidText upper lower)) ∧ (uuidText upper lower).length = 36 := by
  have hlen : (uuidText upper lower).length = 36 := by
    unfold uuidText
    simp only [List.length_append, List.length_cons, length_hexDigits]
  unfold uuidToString
  rw [snprintf_eq (by rw [hlen]; decide) (by rw [hlen]; decide)]
  exact ⟨congrArg (fun s ↦ some (some s)) (List.take_of_length_le hlen.le), hlen⟩

end Uuids

section Bits

/-- `pdo_duckdb_bit_to_string`; a read outside the data has no result. -/
def bitToString : List Byte → Printed
  | [] => some none
  | padding :: payload =>
    if 7 < padding ∨ 0x1fffffffffffffff < payload.length then some none
    else if payload.length * 8 < padding.toNat then some none
    else
      ((List.range (payload.length * 8 - padding.toNat)).mapM fun i ↦
        (payload[(padding.toNat + i) / 8]?).map fun byte ↦
          if byte &&& (1 <<< UInt8.ofNat (7 - (padding.toNat + i) % 8)) = 0 then (0x30 : Byte) else 0x31).map some

def bitsOf (c : Byte) : List Bool :=
  (List.range 8).map fun i ↦ c &&& (1 <<< UInt8.ofNat (7 - i)) != 0

/-- A BIT as the engine stores it: how many bits go unused, and then the bytes; the
unused bits are set. -/
structure BitString where
  padding : UInt8
  payload : List Byte
  padding_le : padding ≤ 7
  padding_fits : padding.toNat ≤ payload.length * 8
  padding_set : ((payload.flatMap bitsOf).take padding.toNat).all id
  short : payload.length + 1 < 0x100000000

def BitString.raw (b : BitString) : List Byte := b.padding :: b.payload

def byteOf (bits : List Bool) : Byte := bits.foldl (fun c b ↦ 2 * c + if b then 1 else 0) 0

def packed : List Bool → List Byte
  | a :: b :: c :: d :: e :: f :: g :: h :: bits => byteOf [a, b, c, d, e, f, g, h] :: packed bits
  | _ => []

/-- The bits of a text, with as many set bits before them as make bytes of them. -/
def readBits (s : List Byte) : Option (List Byte) :=
  (s.mapM fun c ↦ if c = 0x31 then some true else if c = 0x30 then some false else none).map fun bits ↦
    let padding := (8 - bits.length % 8) % 8
    UInt8.ofNat padding :: packed (List.replicate padding true ++ bits)

theorem length_bitsOf (c : Byte) : (bitsOf c).length = 8 := by
  unfold bitsOf
  rw [List.length_map, List.length_range]

theorem length_flatMap_bitsOf (payload : List Byte) : (payload.flatMap bitsOf).length = payload.length * 8 := by
  induction payload with
  | nil => rfl
  | cons c payload ih =>
    rw [List.flatMap_cons, List.length_append, length_bitsOf, ih, List.length_cons]
    omega

theorem byteOf_bitsOf : ∀ c : Byte, byteOf (bitsOf c) = c := forall_byte (by decide)

theorem packed_flatMap (payload : List Byte) : packed (payload.flatMap bitsOf) = payload := by
  induction payload with
  | nil => rfl
  | cons c payload ih =>
    have hbyte : packed (bitsOf c ++ payload.flatMap bitsOf) =
        byteOf (bitsOf c) :: packed (payload.flatMap bitsOf) := rfl
    rw [List.flatMap_cons, hbyte, byteOf_bitsOf, ih]

/-- A bit of the data is a bit of one of its bytes. -/
theorem getElem?_flatMap_bitsOf (payload : List Byte) (i : ℕ) :
    (payload.flatMap bitsOf)[i]? =
      (payload[i / 8]?).map fun byte ↦ byte &&& (1 <<< UInt8.ofNat (7 - i % 8)) != 0 := by
  induction payload generalizing i with
  | nil => rfl
  | cons c payload ih =>
    rw [List.flatMap_cons]
    by_cases hi : i < 8
    · rw [List.getElem?_append_left (by rwa [length_bitsOf]), Nat.div_eq_of_lt hi, Nat.mod_eq_of_lt hi]
      unfold bitsOf
      rw [List.getElem?_map, List.getElem?_range hi]
      rfl
    · rw [List.getElem?_append_right (by rw [length_bitsOf]; omega), length_bitsOf, ih,
        show i / 8 = (i - 8) / 8 + 1 by omega, List.getElem?_cons_succ, show (i - 8) % 8 = i % 8 by omega]

def bitDigit (b : Bool) : Byte := if b then 0x31 else 0x30

def BitString.bits (b : BitString) : List Bool := (b.payload.flatMap bitsOf).drop b.padding.toNat

theorem bitToString_eq (b : BitString) : bitToString b.raw = some (some (b.bits.map bitDigit)) := by
  have hpadding : ¬ (7 < b.padding ∨ 0x1fffffffffffffff < b.payload.length) := by
    have hle := UInt8.le_iff_toNat_le.mp b.padding_le
    have hshort := b.short
    rw [UInt8.lt_iff_toNat_lt]
    change b.padding.toNat ≤ 7 at hle
    show ¬ (7 < b.padding.toNat ∨ _)
    omega
  have hread : (List.range (b.payload.length * 8 - b.padding.toNat)).mapM (fun i ↦
      (b.payload[(b.padding.toNat + i) / 8]?).map fun byte ↦
        if byte &&& (1 <<< UInt8.ofNat (7 - (b.padding.toNat + i) % 8)) = 0 then (0x30 : Byte) else 0x31) =
      some (b.bits.map bitDigit) := by
    apply Collecting.mapM_eq_some.mpr
    have hlen : b.payload.length * 8 - b.padding.toNat = (b.bits.map bitDigit).length := by
      rw [List.length_map, BitString.bits, List.length_drop, length_flatMap_bitsOf]
    rw [hlen]
    apply List.Forall₂.flip
    apply Pointwise.forall₂_range
    intro i d hd
    rw [BitString.bits, List.getElem?_map, List.getElem?_drop, getElem?_flatMap_bitsOf, Option.map_map] at hd
    show Option.map _ _ = some d
    rw [← hd]
    congr 1
    funext byte
    unfold bitDigit
    simp only [Function.comp_apply, bne_iff_ne, ne_eq, ite_not]
  unfold BitString.raw bitToString
  dsimp only
  rw [if_neg hpadding, if_neg (Nat.not_lt.mpr b.padding_fits), hread]
  rfl

theorem mapM_bitDigit (bits : List Bool) :
    (bits.map bitDigit).mapM (fun c ↦ if c = 0x31 then some true else if c = 0x30 then some false else none) =
      some bits := by
  apply Collecting.mapM_eq_some.mpr
  rw [List.forall₂_map_left_iff]
  refine List.forall₂_same.mpr fun b _ ↦ ?_
  cases b <;> rfl

theorem readBits_eq (b : BitString) : readBits (b.bits.map bitDigit) = some b.raw := by
  have hle := UInt8.le_iff_toNat_le.mp b.padding_le
  change b.padding.toNat ≤ 7 at hle
  have hfits := b.padding_fits
  have hlen : b.bits.length = b.payload.length * 8 - b.padding.toNat := by
    rw [BitString.bits, List.length_drop, length_flatMap_bitsOf]
  have hpad : (8 - b.bits.length % 8) % 8 = b.padding.toNat := by omega
  have hset : (b.payload.flatMap bitsOf).take b.padding.toNat = List.replicate b.padding.toNat true := by
    apply List.eq_replicate_iff.mpr
    constructor
    · rw [List.length_take, length_flatMap_bitsOf, Nat.min_eq_left hfits]
    · exact fun bit hbit ↦ List.all_eq_true.mp b.padding_set bit hbit
  unfold readBits
  rw [mapM_bitDigit, Option.map_some, hpad]
  dsimp only
  rw [← hset, BitString.bits, List.take_append_drop, packed_flatMap,
    UInt8.ofNat_toNat]
  rfl

end Bits

section Lossless

variable {α β : Type}

/-- Every value has a text, of which `fits` holds and from which it can be read back,
so that no two values have the same. -/
structure Lossless (render : α → Printed) (read : List Byte → Option β) (value : α → β)
    (fits : α → List Byte → Prop) : Prop where
  readBack : ∀ a, ∃ text, render a = some (some text) ∧ fits a text ∧ read text = some (value a)
  apart : ∀ a b, render a = render b → a = b

theorem lossless {render : α → Printed} {read : List Byte → Option β} {value : α → β} {fits : α → List Byte → Prop}
    (hvalue : Function.Injective value)
    (h : ∀ a, ∃ text, render a = some (some text) ∧ fits a text ∧ read text = some (value a)) :
    Lossless render read value fits where
  readBack := h
  apart := by
    intro a b heq
    obtain ⟨s, hs, -, hread⟩ := h a
    obtain ⟨t, ht, -, hread'⟩ := h b
    rw [hs, ht] at heq
    cases heq
    exact hvalue (Option.some.inj (hread.symm.trans hread'))

/-- The texts that the driver prints without help of the engine. -/
theorem scalar_texts :
    Lossless (fun v : Int32 × Int64 ↦ intervalToString 0 v.1 v.2) readInterval.whole
      (fun v ↦ (v.1.toInt, v.2.toInt)) (fun _ text ↦ text.length < 96) ∧
    Lossless (fun v : TimeNs ↦ timeNsToString v.1) ((readClock 9).map (clockTicks 9)).whole
      (fun v ↦ v.1.toInt.toNat) (fun _ text ↦ text.length < 64) ∧
    Lossless (formatTzOffset 16 []) readOffset.whole Int32.toInt (fun _ text ↦ text.length < 16) ∧
    Lossless (fun v : TimeOfDay × Int32 ↦ timeTzToString v.1.1 v.2) readTimeTz.whole
      (fun v ↦ (v.1.parts, v.2.toInt)) (fun _ text ↦ text.length < 64) ∧
    Lossless (fun v : UInt64 × UInt64 ↦ uuidToString v.1 v.2) readUuid.whole id
      (fun _ text ↦ text.length = 36) ∧
    Lossless (fun v : BitString ↦ bitToString v.raw) readBits BitString.raw
      (fun v text ↦ text.length = v.payload.length * 8 - v.padding.toNat) := by
  refine ⟨?_, ?_, ?_, ?_, ?_, ?_⟩
  · apply lossless
    · intro v w h
      exact Prod.ext (Int32.toInt_inj.mp (Prod.ext_iff.mp h).1) (Int64.toInt_inj.mp (Prod.ext_iff.mp h).2)
    · intro v
      obtain ⟨htext, hlen⟩ := intervalToString_eq v.1 v.2
      exact ⟨_, htext, hlen, (reads_interval v.1 v.2.toInt).whole⟩
  · apply lossless
    · intro v w h
      have hv := v.2.1
      have hw := w.2.1
      have heq : v.1.toInt.toNat = w.1.toInt.toNat := h
      exact Subtype.ext (Int64.toInt_inj.mp (by omega))
    · intro v
      obtain ⟨htext, hlen⟩ := timeNsToString_eq v
      exact ⟨_, htext, hlen, (reads_timeNs _).whole⟩
  · apply lossless
    · exact fun _ _ h ↦ Int32.toInt_inj.mp h
    · intro v
      have hlen := length_secondsText (natAbs_le v)
      refine ⟨_, formatTzOffset_eq v (by decide), ?_, (reads_offset v.toInt).whole⟩
      show (offsetText v.toInt).length < 16
      unfold offsetText
      rw [List.length_cons]
      omega
  · apply lossless
    · intro v w h
      exact Prod.ext (TimeOfDay.parts_inj (Prod.ext_iff.mp h).1) (Int32.toInt_inj.mp (Prod.ext_iff.mp h).2)
    · intro v
      obtain ⟨htext, hlen⟩ := timeTzToString_eq v.1 v.2
      exact ⟨_, htext, hlen, (reads_timeTz v.1 v.2.toInt).whole⟩
  · apply lossless Function.injective_id
    intro v
    obtain ⟨htext, hlen⟩ := uuidToString_eq v.1 v.2
    exact ⟨_, htext, hlen, (reads_uuid v.1 v.2).whole⟩
  · apply lossless
    · intro v w h
      obtain ⟨hpadding, hpayload⟩ := List.cons.inj h
      cases v
      cases w
      cases hpadding
      cases hpayload
      rfl
    · intro v
      refine ⟨_, bitToString_eq v, ?_, readBits_eq v⟩
      rw [List.length_map, BitString.bits, List.length_drop, length_flatMap_bitsOf]

end Lossless

end PdoDuckdb.Texts
