import Mathlib.Data.List.Sort
import StaticPromotion.Proofs.Decoding
import StaticPromotion.Splice

/-!
# Splices from the back cut the text once

Splices are applied one after the other, the last offset first, so that each still finds its offset. What comes out is the
text cut at all offsets at once, with the texts of the splices between the pieces.

* `Splice.woven`          the text with a text at each offset, read off from the last offset to the first;
* `Splice.foldl_insert`   so the row of insertions gives it;
* `Splice.pieces`         the bytes cut at some offsets. `Splice.ends`: where pieces end;
* `Splice.woven_eq`       if all texts are the same one, it stands between the pieces;
* `Splice.ordered_eq`     the order of application is that of a stable sort;
* `Splice.Weaves`         a word put at some cuts of the bytes, said without insertions. `Splice.weaves_foldl_insert`;
* `Table.promote_ok`      the text of a promotion is that of the splices, in the order of application.
-/

namespace StaticPromotion

namespace Splice

variable {splices : List Splice} {bytes : List UInt8}

/-! ## one insertion after the other -/

/-- the order of application -/
def Descends (splices : List Splice) : Prop :=
  splices.Pairwise fun a b => b.offset ≤ a.offset

def woven (bytes : List UInt8) : List Splice → List UInt8
  | [] => bytes
  | s :: rest => woven (bytes.take s.offset) rest ++ Utf8.encode s.text ++ bytes.drop s.offset

/-- insertions leave alone what lies behind all of them -/
theorem foldl_insert (hdescends : Descends splices)
    (hwithin : ∀ s ∈ splices, s.offset ≤ bytes.length) (tail : List UInt8) :
    splices.foldl (fun bytes s => s.insert bytes) (bytes ++ tail) = woven bytes splices ++ tail := by
  induction splices generalizing bytes tail with
  | nil => rfl
  | cons s rest ih =>
    obtain ⟨hs, hrest⟩ := List.pairwise_cons.mp hdescends
    have hle : s.offset ≤ bytes.length := hwithin s List.mem_cons_self
    have hlength : (bytes.take s.offset).length = s.offset := List.length_take_of_le hle
    have hinsert : s.insert (bytes ++ tail) =
        bytes.take s.offset ++ (Utf8.encode s.text ++ (bytes.drop s.offset ++ tail)) := by
      rw [insert, insertAt, List.take_append_of_le_length hle, List.drop_append_of_le_length hle,
        List.append_assoc]
    rw [List.foldl_cons, hinsert, ih hrest fun s' hs' => hlength.symm ▸ hs s' hs', woven]
    simp only [List.append_assoc]

/-! ## pieces -/

def pieces (bytes : List UInt8) : List Nat → List (List UInt8)
  | [] => [bytes]
  | offset :: rest => pieces (bytes.take offset) rest ++ [bytes.drop offset]

/-- where pieces end, if the first one begins at `start` -/
def ends (start : Nat) : List (List UInt8) → List Nat
  | [] => []
  | piece :: rest => (start + piece.length) :: ends (start + piece.length) rest

theorem pieces_ne_nil (bytes : List UInt8) (offsets : List Nat) : pieces bytes offsets ≠ [] := by
  cases offsets with
  | nil => exact List.cons_ne_nil _ _
  | cons offset rest => exact List.append_ne_nil_of_right_ne_nil _ (List.cons_ne_nil _ _)

theorem flatten_pieces (bytes : List UInt8) (offsets : List Nat) :
    (pieces bytes offsets).flatten = bytes := by
  induction offsets generalizing bytes with
  | nil => exact List.append_nil bytes
  | cons offset rest ih =>
    rw [pieces, List.flatten_append, ih, List.flatten_singleton, List.take_append_drop]

theorem ends_append (start : Nat) (ps qs : List (List UInt8)) :
    ends start (ps ++ qs) = ends start ps ++ ends (start + ps.flatten.length) qs := by
  induction ps generalizing start with
  | nil => rfl
  | cons p ps ih =>
    rw [List.cons_append, ends, ends, ih, List.flatten_cons, List.length_append, Nat.add_assoc]
    rfl

theorem ends_pieces {offsets : List Nat} (hdescends : offsets.Pairwise fun a b => b ≤ a)
    (hwithin : ∀ offset ∈ offsets, offset ≤ bytes.length) :
    ends 0 (pieces bytes offsets) = offsets.reverse ++ [bytes.length] := by
  induction offsets generalizing bytes with
  | nil =>
    rw [pieces, ends, ends, Nat.zero_add]
    rfl
  | cons offset rest ih =>
    obtain ⟨hfirst, hrest⟩ := List.pairwise_cons.mp hdescends
    have hle : offset ≤ bytes.length := hwithin offset List.mem_cons_self
    have hlength : (bytes.take offset).length = offset := List.length_take_of_le hle
    rw [pieces, ends_append, ih hrest fun o ho => hlength.symm ▸ hfirst o ho, flatten_pieces, hlength,
      ends, ends, List.length_drop, List.reverse_cons]
    rw [show 0 + offset + (bytes.length - offset) = bytes.length by omega]

theorem intercalate_concat {sep last : List UInt8} {parts : List (List UInt8)} (h : parts ≠ []) :
    sep.intercalate (parts ++ [last]) = sep.intercalate parts ++ sep ++ last := by
  induction parts with
  | nil => exact absurd rfl h
  | cons part rest ih =>
    cases rest with
    | nil =>
      show sep.intercalate [part, last] = _
      rw [List.intercalate_cons_cons, List.intercalate_singleton, List.intercalate_singleton]
    | cons next rest =>
      have hrest := ih (List.cons_ne_nil next rest)
      show sep.intercalate (part :: next :: (rest ++ [last])) = _
      rw [List.intercalate_cons_cons, List.intercalate_cons_cons, ← List.cons_append, hrest]
      simp only [List.append_assoc]

theorem woven_eq {text : String} (h : ∀ s ∈ splices, s.text = text) (bytes : List UInt8) :
    woven bytes splices = (Utf8.encode text).intercalate (pieces bytes (splices.map (·.offset))) := by
  induction splices generalizing bytes with
  | nil => exact List.intercalate_singleton.symm
  | cons s rest ih =>
    rw [woven, List.map_cons, pieces, intercalate_concat (pieces_ne_nil _ _), h s List.mem_cons_self,
      ih fun s' hs' => h s' (List.mem_cons_of_mem _ hs')]

/-- `out` is `bytes` with `word` at each of the cuts, and else byte for byte the same -/
def Weaves (word : List UInt8) (cuts : List Nat) (bytes out : List UInt8) : Prop :=
  ∃ parts : List (List UInt8), parts.flatten = bytes ∧ ends 0 parts = cuts ++ [bytes.length] ∧
    out = word.intercalate parts

theorem length_ends (start : Nat) (parts : List (List UInt8)) :
    (ends start parts).length = parts.length := by
  induction parts generalizing start with
  | nil => rfl
  | cons part rest ih => rw [ends, List.length_cons, ih, List.length_cons]

theorem length_of_ends {cuts : List Nat} {last : Nat} {parts : List (List UInt8)}
    (h : ends 0 parts = cuts ++ [last]) : parts.length = cuts.length + 1 := by
  rw [← length_ends 0, h, List.length_append, List.length_singleton]

theorem length_intercalate (sep part : List UInt8) (rest : List (List UInt8)) :
    (sep.intercalate (part :: rest)).length =
      (part :: rest).flatten.length + rest.length * sep.length := by
  induction rest generalizing part with
  | nil =>
    rw [List.intercalate_singleton, List.flatten_singleton, List.length_nil, Nat.zero_mul]
    rfl
  | cons next rest ih =>
    have hflat : (part :: next :: rest).flatten.length =
        part.length + (next :: rest).flatten.length := List.length_append
    rw [List.intercalate_cons_cons, List.length_append, List.length_append, ih, hflat,
      List.length_cons, Nat.add_one_mul]
    omega

theorem Weaves.length {word out : List UInt8} {cuts : List Nat}
    (h : Weaves word cuts bytes out) : out.length = bytes.length + cuts.length * word.length := by
  obtain ⟨parts, hbytes, hends, rfl⟩ := h
  have hlength := length_of_ends hends
  cases parts with
  | nil => cases hlength
  | cons part rest => rw [length_intercalate, hbytes, Nat.succ.inj hlength]

theorem Weaves.eq_of_nil {word out : List UInt8} (h : Weaves word [] bytes out) : out = bytes := by
  obtain ⟨parts, hbytes, hends, rfl⟩ := h
  obtain ⟨part, rfl⟩ := List.length_eq_one_iff.mp (length_of_ends hends)
  rw [List.intercalate_singleton, ← hbytes, List.flatten_singleton]

theorem weaves_foldl_insert {text : String} (hdescends : Descends splices)
    (hwithin : ∀ s ∈ splices, s.offset ≤ bytes.length) (htext : ∀ s ∈ splices, s.text = text) :
    Weaves (Utf8.encode text) (splices.map (·.offset)).reverse bytes
      (splices.foldl (fun bytes s => s.insert bytes) bytes) := by
  refine ⟨pieces bytes (splices.map (·.offset)), flatten_pieces _ _, ?_, ?_⟩
  · refine ends_pieces (List.pairwise_map.mpr hdescends) fun offset hoffset => ?_
    obtain ⟨s, hs, rfl⟩ := List.mem_map.mp hoffset
    exact hwithin s hs
  · have hinserted := foldl_insert hdescends hwithin []
    rw [List.append_nil, List.append_nil] at hinserted
    rw [hinserted, woven_eq htext]

/-! ## the order of application -/

theorem ordered_perm {α : Type} (splices : List (Splice × α)) : (ordered splices).Perm splices :=
  List.mergeSort_perm _ _

section Order

variable {α : Type}

/-- comes no later in the order of application -/
def Precedes (a b : Splice × α) : Prop :=
  b.1.offset ≤ a.1.offset

instance : DecidableRel (Precedes (α := α)) :=
  fun a b => inferInstanceAs (Decidable (b.1.offset ≤ a.1.offset))

theorem precedes_trans (a b c : Splice × α) (hab : decide (Precedes a b) = true)
    (hbc : decide (Precedes b c) = true) : decide (Precedes a c) = true :=
  decide_eq_true (Nat.le_trans (of_decide_eq_true hbc) (of_decide_eq_true hab))

theorem precedes_total (a b : Splice × α) : (decide (Precedes a b) || decide (Precedes b a)) = true := by
  rw [Bool.or_eq_true, decide_eq_true_eq, decide_eq_true_eq]
  exact Nat.le_total _ _

theorem pairwise_ordered (splices : List (Splice × α)) : (ordered splices).Pairwise Precedes :=
  (List.pairwise_mergeSort precedes_trans precedes_total splices).imp of_decide_eq_true

theorem descends_ordered (splices : List (Splice × α)) : Descends ((ordered splices).map (·.1)) :=
  List.pairwise_map.mpr (pairwise_ordered splices)

theorem orderedInsert_append {a : Splice × α} {front back : List (Splice × α)}
    (hfront : ∀ b ∈ front, ¬ Precedes a b) (hback : ∀ b ∈ back, Precedes a b) :
    (front ++ back).orderedInsert Precedes a = front ++ a :: back := by
  induction front with
  | nil =>
    cases back with
    | nil => rfl
    | cons b back => exact List.orderedInsert_cons_of_le _ back (hback b List.mem_cons_self)
  | cons b front ih =>
    rw [List.cons_append, List.orderedInsert_of_not_le _ _ (hfront b List.mem_cons_self),
      ih fun b' hb' => hfront b' (List.mem_cons_of_mem _ hb')]
    rfl

/-- stable: of two at one offset, the one given first is the first to be applied -/
theorem ordered_eq (splices : List (Splice × α)) : ordered splices = splices.insertionSort Precedes := by
  induction splices with
  | nil => exact List.mergeSort_nil
  | cons a rest ih =>
    obtain ⟨front, back, hcons, hrest, hfront⟩ :=
      List.mergeSort_cons precedes_trans precedes_total a rest
    have hsorted := pairwise_ordered (a :: rest)
    rw [show ordered (a :: rest) = front ++ a :: back from hcons] at hsorted ⊢
    rw [List.insertionSort_cons, ← ih, show ordered rest = front ++ back from hrest]
    have hback := (List.pairwise_cons.mp (List.pairwise_append.mp hsorted).2.1).1
    exact (orderedInsert_append (fun b hb => by simpa using hfront b hb) hback).symm

end Order

end Splice

/-! ## the text of a promotion -/

namespace Table

variable {t : Table} {j j' : Journal}

theorem applySplice_ok {bytes out : List UInt8} {s : Splice × MethodId}
    (h : t.applySplice bytes s j = .ok out j') : out = s.1.insert bytes := by
  obtain ⟨_, _, _, h⟩ := Run.of_bind_ok h
  obtain ⟨_, _, _, h⟩ := Run.of_bind_ok h
  obtain ⟨_, _, _, h⟩ := Run.of_bind_ok h
  cases h
  rfl

theorem foldlM_applySplice_ok {splices : List (Splice × MethodId)} {bytes out : List UInt8}
    (h : splices.foldlM t.applySplice bytes j = .ok out j') :
    out = (splices.map (·.1)).foldl (fun bytes s => s.insert bytes) bytes := by
  induction splices generalizing bytes j with
  | nil =>
    cases h
    rfl
  | cons s rest ih =>
    rw [List.foldlM_cons] at h
    obtain ⟨bytes₁, j₁, hfirst, hrest⟩ := Run.of_bind_ok h
    rw [ih hrest, applySplice_ok hfirst]
    rfl

theorem promote_ok {methods : List MethodId} {code : String} (h : t.promote methods j = .ok code j') :
    Utf8.encode code = ((Splice.ordered (t.splices methods)).map (·.1)).foldl
      (fun bytes s => s.insert bytes) t.source.bytes.toList := by
  obtain ⟨bytes, j₁, hspliced, hdecoded⟩ := Run.of_bind_ok h
  rw [← foldlM_applySplice_ok hspliced]
  unfold decodeOrThrow at hdecoded
  cases htext : Utf8.decode bytes with
  | ok text =>
    rw [htext] at hdecoded
    cases hdecoded
    exact Utf8.encode_of_decode htext
  | error fault =>
    rw [htext] at hdecoded
    cases hdecoded

end Table

end StaticPromotion
