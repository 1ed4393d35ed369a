import StaticPromotion.Proofs.Splicing
import StaticPromotion.Table.Indexing

/-!
# Splicing from the back is one reading from the front

Splices go in from the last offset to the first, each into what the earlier ones left. The outcome can be read off the text
in one pass from the left: in front of each byte, and at the end, stand the texts of the splices with that offset, the one
given last in front.

* `Splice.merge`            that pass. It looks at the splices of one offset at a time: `Splice.merge_congr`;
* `Splice.woven_eq_merge`   splices that descend give what the pass gives;
* `Splice.filter_ordered`   sorting keeps the order of the splices at one offset;
* `Splice.textsAt_perm`     nor does any other order matter, if the splices at one offset have one text;
* `Table.Shows`             the modifier list of a method is text, with a splice in it too;
* `Table.promote_merges`    the text of a promotion, when there is one, and that the order of the methods is hidden.
-/

namespace StaticPromotion

variable {s : Splice} {bytes : List UInt8}

namespace Splice

variable {splices splices' : List Splice} {offset : Nat}

/-! ## the pass from the left -/

/-- what goes in at an offset -/
def textsAt (splices : List Splice) (offset : Nat) : List UInt8 :=
  (splices.filter fun s => s.offset = offset).reverse.flatMap fun s => Utf8.encode s.text

/-- the bytes from an offset on, with what goes in before each of them and at their end -/
def merge (splices : List Splice) : Nat → List UInt8 → List UInt8
  | offset, [] => textsAt splices offset
  | offset, b :: rest => textsAt splices offset ++ b :: merge splices (offset + 1) rest

theorem merge_congr (h : textsAt splices = textsAt splices') : merge splices = merge splices' := by
  funext offset bytes
  induction bytes generalizing offset with
  | nil => exact congrFun h offset
  | cons b rest ih => rw [merge, merge, ih, h]

theorem textsAt_of_ne (h : ∀ s ∈ splices, s.offset ≠ offset) : textsAt splices offset = [] := by
  have hnone : (splices.filter fun s => s.offset = offset) = [] :=
    List.filter_eq_nil_iff.mpr fun s hs => by simpa using h s hs
  rw [textsAt, hnone]
  rfl

theorem textsAt_cons_self (s : Splice) (rest : List Splice) :
    textsAt (s :: rest) s.offset = textsAt rest s.offset ++ Utf8.encode s.text := by
  rw [textsAt, List.filter_cons_of_pos (by simp), List.reverse_cons, List.flatMap_append,
    List.flatMap_singleton]
  rfl

theorem textsAt_cons_of_ne (h : s.offset ≠ offset) (rest : List Splice) :
    textsAt (s :: rest) offset = textsAt rest offset := by
  rw [textsAt, List.filter_cons_of_neg (by simpa using h)]
  rfl

theorem merge_of_lt (h : ∀ s ∈ splices, s.offset < offset) (bytes : List UInt8) :
    merge splices offset bytes = bytes := by
  induction bytes generalizing offset with
  | nil => exact textsAt_of_ne fun s hs => Nat.ne_of_lt (h s hs)
  | cons b rest ih =>
    rw [merge, textsAt_of_ne fun s hs => Nat.ne_of_lt (h s hs),
      ih fun s hs => Nat.lt_succ_of_lt (h s hs)]
    rfl

/-! ## splices that descend -/

/-- no splice lies behind the first one, so the pass can stop at its offset -/
theorem merge_cons {rest : List Splice} (hrest : ∀ r ∈ rest, r.offset ≤ s.offset) {distance : Nat}
    (hs : s.offset = offset + distance) (hle : distance ≤ bytes.length) : merge (s :: rest) offset bytes =
      merge rest offset (bytes.take distance) ++ Utf8.encode s.text ++ bytes.drop distance := by
  -- the distance from the place of the pass to the splice goes down with the bytes read
  induction distance generalizing offset bytes with
  | zero =>
    obtain rfl : s.offset = offset := hs
    rw [List.take_zero, List.drop_zero, merge]
    cases bytes with
    | nil => rw [merge, textsAt_cons_self, List.append_nil]
    | cons b tail =>
      have hbehind : ∀ r ∈ s :: rest, r.offset < s.offset + 1 := by
        intro r hr
        rcases List.mem_cons.mp hr with rfl | hr
        · exact Nat.lt_succ_self _
        · exact Nat.lt_succ_of_le (hrest r hr)
      rw [merge, textsAt_cons_self, merge_of_lt hbehind]
  | succ distance ih =>
    cases bytes with
    | nil => exact absurd hle (Nat.not_succ_le_zero distance)
    | cons b tail =>
      have hne : s.offset ≠ offset := by omega
      have hnext : s.offset = offset + 1 + distance := by omega
      rw [merge, textsAt_cons_of_ne hne, ih hnext (Nat.le_of_succ_le_succ hle),
        List.take_succ_cons, List.drop_succ_cons, merge]
      simp only [List.append_assoc, List.cons_append]

theorem woven_eq_merge (hdescends : Descends splices) (hwithin : ∀ s ∈ splices, s.offset ≤ bytes.length) :
    woven bytes splices = merge splices 0 bytes := by
  induction splices generalizing bytes with
  | nil => exact (merge_of_lt (fun s hs => absurd hs List.not_mem_nil) bytes).symm
  | cons s rest ih =>
    obtain ⟨hs, hrest⟩ := List.pairwise_cons.mp hdescends
    have hle : s.offset ≤ bytes.length := hwithin s List.mem_cons_self
    have hlength : (bytes.take s.offset).length = s.offset := List.length_take_of_le hle
    rw [woven, ih hrest fun r hr => hlength.symm ▸ hs r hr,
      merge_cons hs (Nat.zero_add s.offset).symm hle]

/-! ## the order in which splices are given -/

section Order

variable {α : Type}

theorem filter_ordered (splices : List (Splice × α)) (offset : Nat) :
    ((ordered splices).filter fun s => s.1.offset = offset) =
      splices.filter fun s => s.1.offset = offset := by
  -- the splices at one offset are in order already, so that a stable sort leaves them in their row
  have hinOrder : (splices.filter fun s => s.1.offset = offset).Pairwise
      fun a b => decide (Precedes a b) = true := by
    refine List.pairwise_of_forall_mem_list fun a ha b hb => decide_eq_true ?_
    have hoffset := of_decide_eq_true (List.mem_filter.mp ha).2
    have hoffset' := of_decide_eq_true (List.mem_filter.mp hb).2
    exact Nat.le_of_eq (hoffset'.trans hoffset.symm)
  have hsublist := (List.sublist_mergeSort precedes_trans precedes_total hinOrder
    List.filter_sublist).filter fun s => s.1.offset = offset
  rw [List.filter_filter] at hsublist
  simp only [Bool.and_self] at hsublist
  exact (hsublist.eq_of_length ((ordered_perm splices).filter _).length_eq.symm).symm

theorem textsAt_map_ordered (splices : List (Splice × α)) :
    textsAt ((ordered splices).map (·.1)) = textsAt (splices.map (·.1)) := by
  funext offset
  rw [textsAt, textsAt, List.filter_map, List.filter_map]
  exact congrArg (fun row : List (Splice × α) => (row.map (·.1)).reverse.flatMap _)
    (filter_ordered splices offset)

theorem foldl_ordered (splices : List (Splice × α)) (hwithin : ∀ s ∈ splices, s.1.offset ≤ bytes.length) :
    ((ordered splices).map (·.1)).foldl (fun bytes s => s.insert bytes) bytes =
      merge (splices.map (·.1)) 0 bytes := by
  have hordered : ∀ s ∈ (ordered splices).map (·.1), s.offset ≤ bytes.length := by
    intro s hs
    obtain ⟨spliced, hspliced, rfl⟩ := List.mem_map.mp hs
    exact hwithin spliced ((ordered_perm splices).mem_iff.mp hspliced)
  calc ((ordered splices).map (·.1)).foldl (fun bytes s => s.insert bytes) bytes
      = woven bytes ((ordered splices).map (·.1)) := by
        have hinserted := foldl_insert (descends_ordered splices) hordered []
        rwa [List.append_nil, List.append_nil] at hinserted
    _ = merge ((ordered splices).map (·.1)) 0 bytes :=
        woven_eq_merge (descends_ordered splices) hordered
    _ = merge (splices.map (·.1)) 0 bytes := by rw [merge_congr (textsAt_map_ordered splices)]

end Order

/-- one text at each offset -/
def Agree (splices : List Splice) : Prop :=
  ∀ a ∈ splices, ∀ b ∈ splices, a.offset = b.offset → a.text = b.text

instance (splices : List Splice) : Decidable (Agree splices) :=
  inferInstanceAs (Decidable (∀ a ∈ splices, ∀ b ∈ splices, a.offset = b.offset → a.text = b.text))

theorem filter_perm (hperm : splices'.Perm splices) (hagree : Agree splices) (offset : Nat) :
    (splices'.filter fun s => s.offset = offset) = splices.filter fun s => s.offset = offset := by
  have hrow := hperm.filter fun s => decide (s.offset = offset)
  have hmember : ∀ s ∈ splices.filter (fun s => s.offset = offset),
      s ∈ splices ∧ s.offset = offset :=
    fun s hs => ⟨(List.mem_filter.mp hs).1, of_decide_eq_true (List.mem_filter.mp hs).2⟩
  cases hsplices : splices.filter fun s => s.offset = offset with
  | nil =>
    rw [hsplices] at hrow
    exact hrow.eq_nil
  | cons a rest =>
    -- with one text at the offset, the row repeats one splice
    have hrepeats : a :: rest = List.replicate (rest.length + 1) a := by
      refine List.eq_replicate_of_mem fun b hb => ?_
      obtain ⟨ha, haoffset⟩ := hmember a (hsplices ▸ List.mem_cons_self)
      obtain ⟨hb, hboffset⟩ := hmember b (hsplices ▸ hb)
      have hoffset : b.offset = a.offset := hboffset.trans haoffset.symm
      have htext : b.text = a.text := hagree b hb a ha hoffset
      cases a
      cases b
      cases hoffset
      cases htext
      rfl
    rw [hsplices, hrepeats] at hrow
    rw [List.perm_replicate.mp hrow, ← hrepeats]

theorem textsAt_perm (hperm : splices'.Perm splices)
    (hagree : Agree splices) : textsAt splices' = textsAt splices := by
  funext offset
  rw [textsAt, textsAt, filter_perm hperm hagree]

end Splice

/-! ## when a promotion has a text -/

namespace Table

variable {t : Table} {j j' : Journal}

theorem decodeOrThrow_ok {text : String} (h : decodeOrThrow bytes j = .ok text j') :
    Utf8.decode bytes = .ok text ∧ j' = j := by
  unfold decodeOrThrow at h
  cases hdecode : Utf8.decode bytes with
  | ok text' =>
    rw [hdecode] at h
    cases h
    exact ⟨rfl, rfl⟩
  | error fault =>
    rw [hdecode] at h
    cases h

theorem decodeOrThrow_of_decode {text : String} (h : Utf8.decode bytes = .ok text) :
    decodeOrThrow bytes = pure text := by
  unfold decodeOrThrow
  rw [h]

def Shows (t : Table) (m : MethodId) (s : Splice) : Prop :=
  ∃ shown, t.describe m s = pure shown

theorem shows_of_describe {m : MethodId} {shown : String × String} (h : t.describe m s j = .ok shown j') :
    t.Shows m s := by
  unfold describe at h
  cases hlist : (t.method m).modifiersNode with
  | none =>
    refine ⟨("", String.ofList (Text.strip s.text.toList)), ?_⟩
    unfold describe
    rw [hlist]
  | some list =>
    rw [hlist] at h
    obtain ⟨before, j₁, hbefore, h⟩ := Run.of_bind_ok h
    obtain ⟨after, j₂, hafter, -⟩ := Run.of_bind_ok h
    refine ⟨(before, after), ?_⟩
    unfold describe
    rw [hlist]
    show (decodeOrThrow _ >>= fun before => decodeOrThrow _ >>= fun after => pure (before, after)) =
      pure (before, after)
    rw [decodeOrThrow_of_decode (decodeOrThrow_ok hbefore).1, pure_bind,
      decodeOrThrow_of_decode (decodeOrThrow_ok hafter).1, pure_bind]

theorem applySplice_of_shows {s : Splice × MethodId} (h : t.Shows s.2 s.1) (bytes : List UInt8)
    (j : Journal) : ∃ j', t.applySplice bytes s j = .ok (s.1.insert bytes) j' := by
  obtain ⟨shown, hshown⟩ := h
  unfold applySplice
  rw [hshown, pure_bind]
  exact ⟨_, rfl⟩

theorem foldlM_applySplice_of_shows {splices : List (Splice × MethodId)}
    (h : ∀ s ∈ splices, t.Shows s.2 s.1) (bytes : List UInt8) (j : Journal) :
    ∃ out j', splices.foldlM t.applySplice bytes j = .ok out j' := by
  induction splices generalizing bytes j with
  | nil => exact ⟨bytes, j, rfl⟩
  | cons s rest ih =>
    obtain ⟨j₁, hfirst⟩ := applySplice_of_shows (h s List.mem_cons_self) bytes j
    obtain ⟨out, j₂, hrest⟩ := ih (fun r hr => h r (List.mem_cons_of_mem _ hr)) (s.1.insert bytes) j₁
    refine ⟨out, j₂, ?_⟩
    rw [List.foldlM_cons, Run.bind_of_ok hfirst, hrest]

theorem shows_of_foldlM_applySplice {splices : List (Splice × MethodId)} {out : List UInt8}
    (h : splices.foldlM t.applySplice bytes j = .ok out j') : ∀ s ∈ splices, t.Shows s.2 s.1 := by
  induction splices generalizing bytes j with
  | nil => exact fun s hs => absurd hs List.not_mem_nil
  | cons s rest ih =>
    rw [List.foldlM_cons] at h
    obtain ⟨bytes₁, j₁, hfirst, hrest⟩ := Run.of_bind_ok h
    obtain ⟨shown, j₂, hshown, -⟩ := Run.of_bind_ok hfirst
    intro r hr
    rcases List.mem_cons.mp hr with rfl | hr
    · exact shows_of_describe hshown
    · exact ih hrest r hr

theorem map_splices (t : Table) (methods : List MethodId) :
    (t.splices methods).map (·.1) = methods.filterMap t.spliceFor := by
  rw [splices, List.map_filterMap]
  refine List.filterMap_congr fun m _ => ?_
  cases t.spliceFor m <;> rfl

theorem mem_splices {methods : List MethodId} {s : Splice × MethodId} :
    s ∈ t.splices methods ↔ s.2 ∈ methods ∧ t.spliceFor s.2 = some s.1 := by
  obtain ⟨s, m⟩ := s
  simp only [splices, List.mem_filterMap, Option.map_eq_some_iff, Prod.mk.injEq]
  constructor
  · rintro ⟨m', hm', s', hs', rfl, rfl⟩
    exact ⟨hm', hs'⟩
  · rintro ⟨hm, hs⟩
    exact ⟨m, hm, s, hs, rfl, rfl⟩

/-! ## the text -/

/-- the text that the splices of the methods make, in one pass -/
def mergedBytes (t : Table) (methods : List MethodId) : List UInt8 :=
  Splice.merge (methods.filterMap t.spliceFor) 0 t.source.bytes.toList

variable {methods : List MethodId}

theorem foldl_splices
    (hwithin : ∀ s ∈ methods.filterMap t.spliceFor, s.offset ≤ t.source.bytes.toList.length) :
    ((Splice.ordered (t.splices methods)).map (·.1)).foldl (fun bytes s => s.insert bytes)
      t.source.bytes.toList = t.mergedBytes methods := by
  rw [← map_splices] at hwithin
  rw [Splice.foldl_ordered _ fun s hs => hwithin s.1 (List.mem_map_of_mem hs), map_splices]
  rfl

/-- a promotion has a text exactly if all that it decodes can be decoded -/
theorem promote_eq_ok_iff
    (hwithin : ∀ s ∈ methods.filterMap t.spliceFor, s.offset ≤ t.source.bytes.toList.length)
    (j : Journal) (code : String) :
    Run.value? (t.promote methods j) = some code ↔
      (∀ m ∈ methods, ∀ s, t.spliceFor m = some s → t.Shows m s) ∧
        Utf8.decode (t.mergedBytes methods) = .ok code := by
  constructor
  · intro h
    cases hrun : t.promote methods j with
    | error fault j' =>
      rw [hrun] at h
      cases h
    | ok code' j' =>
      rw [hrun] at h
      cases h
      obtain ⟨bytes, j₁, hspliced, hdecoded⟩ := Run.of_bind_ok hrun
      rw [← foldl_splices hwithin, ← foldlM_applySplice_ok hspliced]
      refine ⟨fun m hm s hs => ?_, (decodeOrThrow_ok hdecoded).1⟩
      exact shows_of_foldlM_applySplice hspliced (s, m)
        ((Splice.ordered_perm _).mem_iff.mpr (mem_splices.mpr ⟨hm, hs⟩))
  · rintro ⟨hshows, hdecode⟩
    have hordered : ∀ s ∈ Splice.ordered (t.splices methods), t.Shows s.2 s.1 := by
      intro s hs
      obtain ⟨hm, hsplice⟩ := mem_splices.mp ((Splice.ordered_perm _).mem_iff.mp hs)
      exact hshows s.2 hm s.1 hsplice
    obtain ⟨out, j₁, hspliced⟩ := foldlM_applySplice_of_shows hordered t.source.bytes.toList j
    rw [← foldl_splices hwithin, ← foldlM_applySplice_ok hspliced] at hdecode
    rw [promote, Run.bind_of_ok hspliced, decodeOrThrow_of_decode hdecode]
    rfl

theorem mergedBytes_perm {methods' : List MethodId} (hperm : methods'.Perm methods)
    (hagree : Splice.Agree (methods.filterMap t.spliceFor)) :
    t.mergedBytes methods' = t.mergedBytes methods := by
  unfold mergedBytes
  rw [Splice.merge_congr (Splice.textsAt_perm (hperm.filterMap t.spliceFor) hagree)]

theorem promote_merges
    (within : ∀ s ∈ methods.filterMap t.spliceFor, s.offset ≤ t.source.bytes.toList.length)
    (j : Journal) :
    (∀ code j', t.promote methods j = .ok code j' → Utf8.encode code = t.mergedBytes methods) ∧
      ((∃ code j', t.promote methods j = .ok code j') ↔
        (∀ m ∈ methods, ∀ s, t.spliceFor m = some s → t.Shows m s) ∧
          ∃ code, Utf8.decode (t.mergedBytes methods) = .ok code) ∧
      ∀ methods' : List MethodId, methods'.Perm methods →
        Splice.Agree (methods.filterMap t.spliceFor) →
        Run.value? (t.promote methods' j) = Run.value? (t.promote methods j) := by
  refine ⟨fun code j' h => ?_, ⟨?_, ?_⟩, fun methods' hperm hagree => ?_⟩
  · have hvalue : Run.value? (t.promote methods j) = some code := congrArg Run.value? h
    exact Utf8.encode_of_decode ((promote_eq_ok_iff within j code).mp hvalue).2
  · rintro ⟨code, j', h⟩
    have hvalue : Run.value? (t.promote methods j) = some code := congrArg Run.value? h
    obtain ⟨hshows, hdecode⟩ := (promote_eq_ok_iff within j code).mp hvalue
    exact ⟨hshows, code, hdecode⟩
  · rintro ⟨hshows, code, hdecode⟩
    have hvalue := (promote_eq_ok_iff within j code).mpr ⟨hshows, hdecode⟩
    obtain ⟨a, j', hrun, -⟩ := Run.of_value?_any (p := fun _ => true) (by rw [hvalue]; rfl)
    exact ⟨a, j', hrun⟩
  · have hsplices := hperm.filterMap t.spliceFor
    refine Option.ext fun code => ?_
    rw [promote_eq_ok_iff within,
      promote_eq_ok_iff fun s hs => within s (hsplices.mem_iff.mp hs), mergedBytes_perm hperm hagree]
    refine and_congr_left' ⟨fun h m hm => h m (hperm.mem_iff.mpr hm), fun h m hm => h m (hperm.mem_iff.mp hm)⟩

/-- `class A { private void f() { } static void h() { } final void k() { } }` -/
def crowdedText : String :=
  "class A \x7b private void f() \x7b \x7d static void h() \x7b \x7d final void k() \x7b \x7d \x7d"

/-- the method behind the keyword is given twice, once without it -/
def crowdedTree : ParseTree where
  root :=
    ⟨"program", true, false, 0, 71, none, [
      ⟨"class_declaration", true, false, 0, 71, none, [
        ⟨"identifier", true, false, 6, 7, some "name", []⟩,
        ⟨"class_body", true, false, 8, 71, some "body", [
          ⟨"method_declaration", true, false, 10, 30, none, [
            ⟨"modifiers", true, false, 10, 17, none, [⟨"private", false, false, 10, 17, none, []⟩]⟩,
            ⟨"void_type", true, false, 18, 22, some "type", []⟩, ⟨"identifier", true, false, 23, 24, some "name", []⟩,
            ⟨"formal_parameters", true, false, 24, 26, some "parameters", []⟩,
            ⟨"block", true, false, 27, 30, some "body", []⟩]⟩,
          ⟨"method_declaration", true, false, 17, 30, none, [
            ⟨"void_type", true, false, 17, 22, some "type", []⟩, ⟨"identifier", true, false, 23, 24, some "name", []⟩,
            ⟨"formal_parameters", true, false, 24, 26, some "parameters", []⟩,
            ⟨"block", true, false, 27, 30, some "body", []⟩]⟩,
          ⟨"method_declaration", true, false, 31, 50, none, [
            ⟨"modifiers", true, false, 31, 37, none, [⟨"static", false, false, 31, 37, none, []⟩]⟩,
            ⟨"void_type", true, false, 38, 42, some "type", []⟩, ⟨"identifier", true, false, 43, 44, some "name", []⟩,
            ⟨"formal_parameters", true, false, 44, 46, some "parameters", []⟩,
            ⟨"block", true, false, 47, 50, some "body", []⟩]⟩,
          ⟨"method_declaration", true, false, 51, 69, none, [
            ⟨"modifiers", true, false, 51, 56, none, [⟨"final", false, false, 51, 56, none, []⟩]⟩,
            ⟨"void_type", true, false, 57, 61, some "type", []⟩, ⟨"identifier", true, false, 62, 63, some "name", []⟩,
            ⟨"formal_parameters", true, false, 63, 65, some "parameters", []⟩,
            ⟨"block", true, false, 66, 69, some "body", []⟩]⟩]⟩]⟩]⟩

/-- both methods at the keyword, one of them twice, and the static one -/
def crowdedMethods : List MethodId :=
  [⟨0, 0⟩, ⟨0, 3⟩, ⟨0, 1⟩, ⟨0, 2⟩, ⟨0, 0⟩]

def crowdedRewritten : String :=
  "class A \x7b private staticstatic  static void f() \x7b \x7d static void h() \x7b \x7d " ++
    "final static void k() \x7b \x7d \x7d"

/-- three texts at one offset, of two kinds; the static method adds none -/
theorem crowded_merges :
    ∃ t, Table.ofSource (.ofText crowdedText crowdedTree) = .ok t ∧
      Utf8.encode crowdedRewritten = t.mergedBytes crowdedMethods ∧
      Run.value? (t.promote [⟨0, 2⟩, ⟨0, 0⟩, ⟨0, 0⟩, ⟨0, 3⟩] {}) =
        Run.value? (t.promote [⟨0, 0⟩, ⟨0, 3⟩, ⟨0, 0⟩, ⟨0, 2⟩] {}) := by
  have hevaluated : ((Table.ofSource (.ofText crowdedText crowdedTree)).toOption.any fun t =>
      (crowdedMethods.filterMap t.spliceFor).all (·.offset ≤ t.source.bytes.toList.length) &&
        decide (Splice.Agree
          (([⟨0, 0⟩, ⟨0, 3⟩, ⟨0, 0⟩, ⟨0, 2⟩] : List MethodId).filterMap t.spliceFor)) &&
        Run.value? (t.promote crowdedMethods {}) == some crowdedRewritten) = true := by
    simp only [Table.promote, Splice.ordered_eq]
    decide +kernel
  obtain ⟨t, hbuilt, hfacts⟩ := Run.of_toOption_any hevaluated
  simp only [Bool.and_eq_true, List.all_eq_true, decide_eq_true_eq, beq_iff_eq] at hfacts
  obtain ⟨⟨hwithin, hagree⟩, hvalue⟩ := hfacts
  obtain ⟨code, j', hrun, hcode⟩ := Run.of_value?_any (p := fun code => code == crowdedRewritten)
    (by rw [hvalue]; exact beq_self_eq_true _)
  cases eq_of_beq hcode
  have hfewer : ∀ m ∈ ([⟨0, 0⟩, ⟨0, 3⟩, ⟨0, 0⟩, ⟨0, 2⟩] : List MethodId), m ∈ crowdedMethods := by
    decide
  refine ⟨t, hbuilt, (promote_merges hwithin {}).1 _ j' hrun, ?_⟩
  refine (promote_merges (fun s hs => ?_) {}).2.2 _ (by decide) hagree
  obtain ⟨m, hm, hsplice⟩ := List.mem_filterMap.mp hs
  exact hwithin s (List.mem_filterMap.mpr ⟨m, hfewer m hm, hsplice⟩)

end Table

end StaticPromotion
