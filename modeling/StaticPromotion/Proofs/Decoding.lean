import StaticPromotion.Proofs.Runs
import StaticPromotion.Syntax.SourceUnit

/-!
# Decoded text has the bytes that it was decoded from

A decoder inside a character has made a promise: whatever bytes within its bounds still come, the bits collected then are
the bits of the character that is written with just the bytes read.

* `Completes owed low high bits read`   the promise;
* `completes_of_start?`    the first byte of a character makes it, whichever range it is from;
* `Decoder.Reads`          the characters so far and the bytes of the one begun are what was read. `feed` keeps it;
* `encode_of_decode`       so decoding loses nothing;
* `encode_injective`       and different texts have different bytes;
* `SourceUnit.ofText_eq`   the bytes of a unit are those that its text is stored with, which are quickly at hand.
-/

namespace StaticPromotion.Utf8

variable {bytes : List UInt8}

/-! ## characters and their bytes -/

theorem val_ofNat {n : Nat} (h : n.isValidChar) : (Char.ofNat n).val.toNat = n := by
  rw [Char.ofNat, dif_pos h]
  rfl

theorem ofNat_eq {n : Nat} {b : UInt8} (h : n = b.toNat) : UInt8.ofNat n = b := by
  rw [h, UInt8.ofNat_toNat]

section
variable {a b : UInt8}

theorem encodeChar_one (h : a.toNat < 128) : String.utf8EncodeChar (Char.ofNat a.toNat) = [a] := by
  rw [String.utf8EncodeChar, val_ofNat (.inl (by omega)), if_pos (by omega), ofNat_eq rfl]

theorem encodeChar_two (ha : 194 ≤ a.toNat ∧ a.toNat < 224) (hb : 128 ≤ b.toNat ∧ b.toNat ≤ 191) :
    String.utf8EncodeChar (Char.ofNat (a.toNat % 32 * 64 + b.toNat % 64)) = [a, b] := by
  rw [String.utf8EncodeChar, val_ofNat (.inl (by omega))]
  rw [if_neg (by omega), if_pos (by omega), ofNat_eq (b := a) (by omega), ofNat_eq (b := b) (by omega)]

end

/-! ## what a character begun promises -/

def Completes : Nat → UInt8 → UInt8 → Nat → List UInt8 → Prop
  | 0, _, _, bits, read => String.utf8EncodeChar (Char.ofNat bits) = read
  | owed + 1, low, high, bits, read => ∀ b, low ≤ b → b ≤ high →
      Completes owed 0x80 0xBF (bits * 64 + b.toNat % 64) (read ++ [b])

section
variable {a : UInt8} (low high : UInt8) (hlow : 128 ≤ low.toNat) (hhigh : high.toNat ≤ 191)
include hlow hhigh

theorem completes_three (ha : 224 ≤ a.toNat ∧ a.toNat < 240) (hlong : a.toNat = 224 → 160 ≤ low.toNat)
    (hsurrogate : a.toNat = 237 → high.toNat ≤ 159) : Completes 2 low high (a.toNat % 16) [a] := by
  intro b hb hb' c (hc : 128 ≤ c.toNat) (hc' : c.toNat ≤ 191)
  rw [UInt8.le_iff_toNat_le] at hb hb'
  have hvalid : ((a.toNat % 16 * 64 + b.toNat % 64) * 64 + c.toNat % 64).isValidChar := by
    by_cases hsmall : a.toNat ≤ 237
    · exact .inl (by omega)
    · exact .inr ⟨by omega, by omega⟩
  rw [Completes, String.utf8EncodeChar, val_ofNat hvalid]
  rw [if_neg (by omega), if_neg (by omega), if_pos (by omega), ofNat_eq (b := a) (by omega),
    ofNat_eq (b := b) (by omega), ofNat_eq (b := c) (by omega)]
  rfl

theorem completes_four (ha : 240 ≤ a.toNat ∧ a.toNat ≤ 244) (hlong : a.toNat = 240 → 144 ≤ low.toNat)
    (hbeyond : a.toNat = 244 → high.toNat ≤ 143) : Completes 3 low high (a.toNat % 8) [a] := by
  intro b hb hb' c (hc : 128 ≤ c.toNat) (hc' : c.toNat ≤ 191) d (hd : 128 ≤ d.toNat) (hd' : d.toNat ≤ 191)
  rw [UInt8.le_iff_toNat_le] at hb hb'
  have hvalid : (((a.toNat % 8 * 64 + b.toNat % 64) * 64 + c.toNat % 64) * 64 + d.toNat % 64).isValidChar :=
    .inr ⟨by omega, by omega⟩
  rw [Completes, String.utf8EncodeChar, val_ofNat hvalid]
  rw [if_neg (by omega), if_neg (by omega), if_neg (by omega), ofNat_eq (b := a) (by omega),
    ofNat_eq (b := b) (by omega), ofNat_eq (b := c) (by omega), ofNat_eq (b := d) (by omega)]
  rfl

end

/-- the bounds on the second byte are just what each first byte needs -/
theorem completes_of_start? {position : Nat} {a : UInt8} {p : Pending}
    (h : Pending.start? position a = some p) :
    ∃ owed, p.owed = owed + 1 ∧ Completes (owed + 1) p.low p.high p.bits [a] := by
  unfold Pending.start? at h
  simp only [UInt8.lt_iff_toNat_lt, ← UInt8.toNat_inj, UInt8.reduceToNat] at h
  split at h
  · cases h
  split at h
  · cases h
    refine ⟨0, rfl, fun b hlow hhigh => ?_⟩
    rw [UInt8.le_iff_toNat_le] at hlow hhigh
    exact encodeChar_two (by omega) ⟨hlow, hhigh⟩
  split at h
  · cases h
    exact ⟨1, rfl, completes_three 0xA0 0xBF (by decide) (by decide)
      (by omega) (fun _ => by decide) (by omega)⟩
  split at h
  · cases h
    exact ⟨1, rfl, completes_three 0x80 0x9F (by decide) (by decide)
      (by omega) (by omega) (fun _ => by decide)⟩
  split at h
  · cases h
    exact ⟨1, rfl, completes_three 0x80 0xBF (by decide) (by decide)
      (by omega) (by omega) (by omega)⟩
  split at h
  · cases h
    exact ⟨2, rfl, completes_four 0x90 0xBF (by decide) (by decide)
      (by omega) (fun _ => by decide) (by omega)⟩
  split at h
  · cases h
    exact ⟨2, rfl, completes_four 0x80 0xBF (by decide) (by decide)
      (by omega) (by omega) (by omega)⟩
  split at h
  · cases h
    exact ⟨2, rfl, completes_four 0x80 0x8F (by decide) (by decide)
      (by omega) (by omega) (fun _ => by decide)⟩
  · cases h

/-! ## the decoder -/

/-- the bytes of the character begun, if there is one -/
def Begun : Option Pending → List UInt8 → Prop
  | none, read => read = []
  | some p, read => ∃ owed, p.owed = owed + 1 ∧ Completes (owed + 1) p.low p.high p.bits read

def Decoder.Reads (d : Decoder) (bytes : List UInt8) : Prop :=
  ∃ read, bytes = d.reversed.reverse.flatMap String.utf8EncodeChar ++ read ∧ Begun d.pending read

theorem flatMap_reverse_cons (c : Char) (cs : List Char) :
    (c :: cs).reverse.flatMap String.utf8EncodeChar =
      cs.reverse.flatMap String.utf8EncodeChar ++ String.utf8EncodeChar c := by
  rw [List.reverse_cons, List.flatMap_append, List.flatMap_singleton]

theorem Decoder.Reads.feed {d d' : Decoder} {b : UInt8} (h : d.Reads bytes) (hfeed : d.feed b = .ok d') :
    d'.Reads (bytes ++ [b]) := by
  obtain ⟨read, rfl, hbegun⟩ := h
  unfold Decoder.feed at hfeed
  cases hpending : d.pending with
  | none =>
    rw [hpending] at hfeed hbegun
    cases hbegun
    simp only at hfeed
    split at hfeed
    · rename_i hascii
      cases hfeed
      rw [UInt8.lt_iff_toNat_lt] at hascii
      refine ⟨[], ?_, rfl⟩
      rw [flatMap_reverse_cons, encodeChar_one hascii, List.append_nil, List.append_nil]
    · split at hfeed
      · cases hfeed
      · rename_i p hstart
        cases hfeed
        refine ⟨[b], ?_, completes_of_start? hstart⟩
        rw [List.append_nil]
  | some p =>
    rw [hpending] at hfeed hbegun
    obtain ⟨owed, howed, hcompletes⟩ := hbegun
    simp only at hfeed
    split at hfeed
    · rename_i hbounds
      have hnext := hcompletes b hbounds.1 hbounds.2
      split at hfeed
      · rename_i hlast
        cases hfeed
        obtain rfl : owed = 0 := by omega
        refine ⟨[], ?_, rfl⟩
        rw [flatMap_reverse_cons, show String.utf8EncodeChar _ = read ++ [b] from hnext,
          List.append_nil, List.append_assoc]
      · rename_i hmore
        cases hfeed
        obtain ⟨rest, rfl⟩ : ∃ rest, owed = rest + 1 := ⟨owed - 1, by omega⟩
        refine ⟨read ++ [b], (List.append_assoc _ _ _), rest, ?_, hnext⟩
        simp only [howed, Nat.add_sub_cancel]
    · cases hfeed

theorem Decoder.Reads.feedAll {d d' : Decoder} {more : List UInt8} (h : d.Reads bytes)
    (hfeed : more.foldlM Decoder.feed d = .ok d') : d'.Reads (bytes ++ more) := by
  induction more generalizing d bytes with
  | nil =>
    cases hfeed
    rw [List.append_nil]
    exact h
  | cons b more ih =>
    rw [List.foldlM_cons] at hfeed
    obtain ⟨d₁, hfirst, hrest⟩ := Run.of_except_bind hfeed
    rw [show bytes ++ b :: more = bytes ++ [b] ++ more by rw [List.append_assoc]; rfl]
    exact ih (h.feed hfirst) hrest

theorem encode_of_decode {text : String} (h : decode bytes = .ok text) : encode text = bytes := by
  unfold decode at h
  cases hchars : decodeChars bytes with
  | error fault =>
    rw [hchars] at h
    cases h
  | ok chars =>
    rw [hchars] at h
    cases h
    obtain ⟨d, hfed, hfinish⟩ := Run.of_except_bind hchars
    have hstart : Decoder.Reads {} [] := ⟨[], rfl, rfl⟩
    obtain ⟨read, hbytes, hbegun⟩ := hstart.feedAll hfed
    rw [Decoder.finish] at hfinish
    split at hfinish
    · rename_i hpending
      cases hfinish
      rw [hpending] at hbegun
      cases hbegun
      rw [encode_ofList, ← List.nil_append bytes, hbytes, List.append_nil]
    · cases hfinish

theorem toByteArray_eq (s : String) : s.toByteArray = (encode s).toByteArray := by
  rw [← String.ofList_toList (s := s), String.toByteArray_ofList, encode_ofList]
  rfl

theorem encode_injective {a b : String} (h : encode a = encode b) : a = b := by
  rw [← String.toByteArray_inj, toByteArray_eq a, toByteArray_eq b, h]

end StaticPromotion.Utf8

theorem StaticPromotion.SourceUnit.ofText_eq (code : String) (tree : ParseTree) :
    ofText code tree = ⟨code.toByteArray.data, tree.root, tree.hasErrors⟩ := by
  rw [ofText, Utf8.toByteArray_eq, List.data_toByteArray]
