import AgentUE.Go.Storage
import AgentUE.Protocol.Validity
import Mathlib.Data.List.Sort
import Mathlib.Data.List.Perm.Subperm

/-!
# Go SDK: which frames are put together

`Unframe` accepts the whole groups and nothing else: frames of one block that count themselves, with the
sequence numbers of a range in any order, whose data in that order is an inline block under the name of the
group. Nothing about it depends on the order in which the frames arrive.
-/

namespace AgentUE.Go.Storage

open Data

/-! ## What a whole group is -/

/-- The JSON text of a complete inline block that is no frame. -/
def InlineBlock (raw : List UInt8) (id : String) : Prop :=
  Utf8.Valid raw ∧ ∃ block, Json.parse (Utf8.chars raw) = some (.obj block) ∧ inlineBlockOk rules block = true ∧
    Fields.has block "ref" = false ∧ stringAt block "type" ≠ frameType ∧ idOf block = some id

/-- The frames by ascending sequence number. -/
def inSeqOrder (frames : List FrameBlock) : List FrameBlock :=
  frames.mergeSort fun f g => decide (f.seq ≤ g.seq)

/-- The data of the frames by ascending sequence number. -/
def joined (frames : List FrameBlock) : List UInt8 := ((inSeqOrder frames).map FrameBlock.data).flatten

/-- All frames of one block, each of them once. -/
structure WholeGroup (id : String) (frames : List FrameBlock) : Prop where
  nonempty : 0 < frames.length
  type : ∀ f ∈ frames, f.type = frameType
  blockId : ∀ f ∈ frames, f.blockId = id
  total : ∀ f ∈ frames, f.total = frames.length
  data : ∀ f ∈ frames, f.data ≠ [] ∧ Utf8.Valid f.data
  idNonempty : ∀ f ∈ frames, f.id ≠ ""
  ids : (frames.map FrameBlock.id).Nodup
  seqs : (frames.map FrameBlock.seq).Perm ((List.range frames.length).map Nat.cast)
  block : InlineBlock (joined frames) id

/-! ## The identity of a block -/

theorem blockIdentity_eq_ok_iff {raw : List UInt8} {id : String} :
    blockIdentity raw = .ok id ↔ InlineBlock raw id := by
  rw [blockIdentity, seq_eq_ok, check_eq_ok, Utf8.valid_iff, InlineBlock]
  refine and_congr_right fun _ => ?_
  cases Json.parse (Utf8.chars raw) with
  | none => simp
  | some document =>
    cases document with
    | arr xs => simp [Json.toMap]
    | leaf a =>
      -- `null` leaves an empty map, which has no id
      cases a with
      | null => simp [Json.toMap, validateBlock, stringAt]
      | bool b => simp [Json.toMap]
      | num n => simp [Json.toMap]
      | str s => simp [Json.toMap]
    | obj block =>
      simp only [Json.toMap, Option.some.injEq, DocTree.obj.injEq]
      constructor
      · intro h
        cases hvalid : validateBlock block with
        | error failure => simp [hvalid] at h
        | ok u =>
          have hok := (validateBlock_eq_ok_iff block).mp hvalid
          simp only [hvalid, seq_eq_ok, check_eq_ok, Bool.not_eq_true', Bool.or_eq_false_iff,
            beq_eq_false_iff_ne] at h
          obtain ⟨⟨href, htype⟩, hid⟩ := h
          have hinline := inlineBlockOk_of_blockOk hok href
          have hstring := idOf_eq_some_stringAt (memberIs_id_of_blockOk hok)
          obtain rfl : stringAt block "id" = id := by simpa [pure, Except.pure] using hid
          exact ⟨block, rfl, hinline, href, htype, hstring⟩
      · rintro ⟨_, rfl, hinline, href, htype, hid⟩
        have hok := blockOk_of_inlineBlockOk hinline href
        have hstring := idOf_eq_some_stringAt (memberIs_id_of_blockOk hok)
        obtain rfl : stringAt block "id" = id := by simpa [hid] using hstring.symm
        simp [(validateBlock_eq_ok_iff block).mpr hok, href, htype, check, pure, Except.pure, bind, Except.bind]

/-! ## What the loop has seen when it ends -/

/-- The loop ends well only when every frame has passed its checks and found its place empty: no two frames
share an id, and none share a place, as a frame with data leaves its place filled. -/
theorem of_place_eq_ok {id : String} {total : ℕ} {group : List FrameBlock} {ids : List String}
    {ordered placed : List (List UInt8)} (h : place id total group ids ordered = .ok placed) :
    (∀ f ∈ group, frameOk id total [] f = true) ∧ (group.map FrameBlock.id).Nodup ∧ (∀ f ∈ group, f.id ∉ ids) ∧
      (group.map fun f => f.seq.toNat).Nodup ∧ ∀ f ∈ group, ordered[f.seq.toNat]? = some [] := by
  induction group generalizing ids ordered with
  | nil => simp
  | cons f rest ih =>
    rw [place, seq_eq_ok, seq_eq_ok, check_eq_ok, check_eq_ok, frameOk_iff, beq_iff_eq] at h
    obtain ⟨⟨hok, hnew⟩, hfree, h⟩ := h
    obtain ⟨hoks, hids, hnews, hseqs, hfrees⟩ := ih h
    have hdata : f.data ≠ [] := by
      simp only [frameOk, Bool.and_eq_true, bne_iff_ne] at hok
      exact hok.1.2
    have hlt : f.seq.toNat < ordered.length := (List.getElem?_eq_some_iff.mp hfree).1
    have hother : ∀ g ∈ rest, g.seq.toNat ≠ f.seq.toNat := fun g hg heq => by
      have hplace := hfrees g hg
      rw [heq, List.getElem?_set_self hlt] at hplace
      exact hdata (Option.some.inj hplace)
    refine ⟨?_, ?_, ?_, ?_, ?_⟩
    · exact List.forall_mem_cons.mpr ⟨hok, hoks⟩
    · rw [List.map_cons, List.nodup_cons, List.mem_map]
      refine ⟨?_, hids⟩
      rintro ⟨g, hg, hgf⟩
      exact hnews g hg (hgf ▸ List.mem_cons_self)
    · exact List.forall_mem_cons.mpr ⟨hnew, fun g hg hmem => hnews g hg (List.mem_cons_of_mem _ hmem)⟩
    · rw [List.map_cons, List.nodup_cons, List.mem_map]
      refine ⟨?_, hseqs⟩
      rintro ⟨g, hg, hgf⟩
      exact hother g hg hgf
    · refine List.forall_mem_cons.mpr ⟨hfree, fun g hg => ?_⟩
      have hplace := hfrees g hg
      rwa [List.getElem?_set_ne (hother g hg).symm] at hplace

/-! ## The order of the sequence numbers -/

theorem perm_inSeqOrder (frames : List FrameBlock) : (inSeqOrder frames).Perm frames := List.mergeSort_perm _ _

theorem pairwise_inSeqOrder (frames : List FrameBlock) :
    ((inSeqOrder frames).map FrameBlock.seq).Pairwise (· ≤ ·) := by
  have hsorted : (inSeqOrder frames).Pairwise fun f g => decide (f.seq ≤ g.seq) = true :=
    List.pairwise_mergeSort (fun a b c hab hbc => by simp only [decide_eq_true_eq] at hab hbc ⊢; omega)
      (fun a b => by simp only [Bool.or_eq_true, decide_eq_true_eq]; omega) frames
  rw [List.pairwise_map]
  exact hsorted.imp fun h => by simpa using h

/-- As many different numbers as the range has, all of them in it, are the range in some order. -/
theorem perm_range_of_nodup {seqs : List ℕ} (hnodup : seqs.Nodup) (hlt : ∀ n ∈ seqs, n < seqs.length) :
    seqs.Perm (List.range seqs.length) := by
  have hsub : seqs ⊆ List.range seqs.length := fun n hn => List.mem_range.mpr (hlt n hn)
  exact (List.subperm_of_subset hnodup hsub).perm_of_length_le (by simp)

/-- In their order the frames have the numbers of the range one after another. -/
theorem seqs_inSeqOrder {frames : List FrameBlock}
    (h : (frames.map FrameBlock.seq).Perm ((List.range frames.length).map Nat.cast)) :
    (inSeqOrder frames).map FrameBlock.seq = (List.range frames.length).map Nat.cast := by
  have hrange : ((List.range frames.length).map (Nat.cast : ℕ → ℤ)).Pairwise (· ≤ ·) := by
    rw [List.pairwise_map]
    exact List.pairwise_lt_range.imp fun hlt => by omega
  have hperm := ((perm_inSeqOrder frames).map FrameBlock.seq).trans h
  exact hperm.eq_of_pairwise (fun a b _ _ hab hba => Int.le_antisymm hab hba) (pairwise_inSeqOrder frames) hrange

/-- In their order the frames of a group stand at their places. -/
theorem complete_inSeqOrder {id : String} {frames : List FrameBlock}
    (hok : ∀ f ∈ frames, frameOk id frames.length [] f = true) (hids : (frames.map FrameBlock.id).Nodup)
    (hseqs : (frames.map FrameBlock.seq).Perm ((List.range frames.length).map Nat.cast)) :
    Complete id (inSeqOrder frames) := by
  have hperm := perm_inSeqOrder frames
  refine ⟨fun i f hf => ?_, fun f hf => ?_, (hperm.map _).nodup_iff.mpr hids⟩
  · have hseq := congrArg (fun seqs => seqs[i]?) (seqs_inSeqOrder hseqs)
    have hlt : i < frames.length := hperm.length_eq ▸ (List.getElem?_eq_some_iff.mp hf).1
    simpa [hf, hlt] using hseq
  · rw [hperm.length_eq]
    exact hok f (hperm.mem_iff.mp hf)

/-! ## Whole groups -/

theorem frameOk_nil_iff {id : String} {total : ℕ} {f : FrameBlock} :
    frameOk id total [] f = true ↔ f.type = frameType ∧ f.id ≠ "" ∧ f.blockId = id ∧ f.total = total ∧
      0 ≤ f.seq ∧ f.seq < total ∧ f.data ≠ [] ∧ Utf8.Valid f.data := by
  simp [frameOk, Utf8.valid_iff, and_assoc]

theorem WholeGroup.complete {id : String} {frames : List FrameBlock} (h : WholeGroup id frames) :
    Complete id (inSeqOrder frames) := by
  refine complete_inSeqOrder (fun f hf => ?_) h.ids h.seqs
  have hseq := h.seqs.mem_iff.mp (List.mem_map_of_mem hf)
  obtain ⟨n, hn, hcast⟩ := List.mem_map.mp hseq
  rw [List.mem_range] at hn
  exact frameOk_nil_iff.mpr ⟨h.type f hf, h.idNonempty f hf, h.blockId f hf, h.total f hf, by omega, by omega,
    h.data f hf⟩

/-- A whole group is put together in whatever order it arrives. -/
theorem WholeGroup.unframe_of_perm {id : String} {frames group : List FrameBlock} (h : WholeGroup id frames)
    (hgroup : group.Perm frames) : unframe group = .ok (joined frames) := by
  have hne : inSeqOrder frames ≠ [] := by
    have hlen := (perm_inSeqOrder frames).length_eq
    have hpos := h.nonempty
    exact List.ne_nil_of_length_pos (by omega)
  have hid : blockIdentity (joined frames) = .ok id := blockIdentity_eq_ok_iff.mpr h.block
  exact h.complete.unframe_of_perm hne hid (hgroup.trans (perm_inSeqOrder frames).symm)

/-- What `Unframe` accepts is a whole group. -/
theorem wholeGroup_of_unframe {frames : List FrameBlock} {block : List UInt8} (h : unframe frames = .ok block) :
    ∃ id, WholeGroup id frames := by
  cases frames with
  | nil => simp [unframe] at h
  | cons first rest =>
    rw [unframe, seq_eq_ok, bind_eq_ok] at h
    obtain ⟨-, ordered, hplace, h⟩ := h
    rw [bind_eq_ok] at h
    obtain ⟨restored, hrestored, h⟩ := h
    rw [seq_eq_ok, check_eq_ok, beq_iff_eq] at h
    obtain ⟨rfl, hblock⟩ := h
    obtain ⟨hok, hids, -, hnodup, -⟩ := of_place_eq_ok hplace
    set frames := first :: rest with hframes
    have hall := fun f hf => frameOk_nil_iff.mp (hok f hf)
    -- the places are different and below their number
    have hrange : (frames.map fun f => f.seq.toNat).Perm (List.range frames.length) := by
      have hperm := perm_range_of_nodup hnodup fun n hn => by
        obtain ⟨f, hf, rfl⟩ := List.mem_map.mp hn
        obtain ⟨-, -, -, -, hpos, hlt, -⟩ := hall f hf
        rw [List.length_map]
        omega
      rwa [List.length_map] at hperm
    have hseqs : (frames.map FrameBlock.seq).Perm ((List.range frames.length).map Nat.cast) := by
      have hcast := hrange.map (Nat.cast : ℕ → ℤ)
      rw [List.map_map] at hcast
      have heq : frames.map FrameBlock.seq = frames.map ((Nat.cast : ℕ → ℤ) ∘ fun f => f.seq.toNat) :=
        List.map_congr_left fun f hf => by
          obtain ⟨-, -, -, -, hpos, -⟩ := hall f hf
          exact (Int.toNat_of_nonneg hpos).symm
      rwa [heq]
    -- so what has been placed is what the frames give in their order
    have hjoined : ordered = (inSeqOrder frames).map FrameBlock.data := by
      have hcomplete := (complete_inSeqOrder hok hids hseqs).place_of_perm (perm_inSeqOrder frames).symm
      exact Except.ok.inj (hplace.symm.trans hcomplete)
    refine ⟨first.blockId, ⟨by simp [hframes], fun f hf => (hall f hf).1, fun f hf => (hall f hf).2.2.1,
      fun f hf => (hall f hf).2.2.2.1, fun f hf => (hall f hf).2.2.2.2.2.2, fun f hf => (hall f hf).2.1, hids,
      hseqs, ?_⟩⟩
    rw [joined, ← hjoined]
    exact blockIdentity_eq_ok_iff.mp hrestored

/-- `Unframe` accepts exactly the whole groups, restores the data in the order of the sequence numbers, and does
so for every order of the frames. -/
theorem unframe_eq_ok_iff (frames : List FrameBlock) :
    (∀ block, unframe frames = .ok block ↔ (∃ id, WholeGroup id frames) ∧ block = joined frames) ∧
      ∀ group : List FrameBlock, group.Perm frames →
        ∀ block, unframe group = .ok block ↔ unframe frames = .ok block := by
  have hiff : ∀ group : List FrameBlock, group.Perm frames → ∀ block,
      unframe group = .ok block ↔ (∃ id, WholeGroup id frames) ∧ block = joined frames := by
    intro group hgroup block
    constructor
    · intro h
      obtain ⟨id, hwhole⟩ := wholeGroup_of_unframe h
      have hframes : unframe frames = .ok (joined group) := hwhole.unframe_of_perm hgroup.symm
      obtain ⟨id', hwhole'⟩ := wholeGroup_of_unframe hframes
      rw [hwhole'.unframe_of_perm hgroup] at h
      exact ⟨⟨id', hwhole'⟩, (Except.ok.inj h).symm⟩
    · rintro ⟨⟨id, hwhole⟩, rfl⟩
      exact hwhole.unframe_of_perm hgroup
  refine ⟨hiff frames (List.Perm.refl _), fun group hgroup block => ?_⟩
  rw [hiff group hgroup, hiff frames (List.Perm.refl _)]

/-- The sample block in two frames, the second of them first. -/
def sampleGroup : List FrameBlock :=
  [⟨"y", frameType, "b", 1, 2, sampleBlock.drop 10⟩, ⟨"x", frameType, "b", 0, 2, sampleBlock.take 10⟩]

/-- The frames of the sample are accepted as they are since they are accepted in their order. -/
theorem unframe_eq_ok_iff_sample : unframe sampleGroup = .ok sampleBlock ∧
    joined sampleGroup.reverse = sampleBlock := by
  have hreverse : unframe sampleGroup.reverse = .ok sampleBlock := toOption_eq_some.mp (by decide +kernel)
  obtain ⟨haccepts, hperm⟩ := unframe_eq_ok_iff sampleGroup.reverse
  exact ⟨(hperm sampleGroup (List.reverse_perm _).symm _).mpr hreverse, ((haccepts _).mp hreverse).2.symm⟩

end AgentUE.Go.Storage
