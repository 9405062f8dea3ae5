import CborCodec.Proofs.Delivering
import CborCodec.Proofs.Extending
/-!
Sequences in parts. An item in a sequence is judged as it is by itself, so the items that are
passed over one after another cover a front of the data without a gap, up to its end or to the
first place where there is no item; and the item at an index is the one that stands there among
them. Each step of a walk is stated once, and the parts of a whole sequence follow by induction on
what is left.
-/

namespace CborCodec

/-- The data is items end to end, the first at offset `o`, up to its end or to what is no item. -/
inductive Splits (options : Options) :
    Nat → Bytes → List (Nat × Bytes) → Option (Nat × Error) → Prop
  | ended (o : Nat) : Splits options o [] [] none
  | failed {o : Nat} {data : Bytes} {e : Error} (hdata : data ≠ [])
      (h : itemLength options data = .error e) : Splits options o data [] (some (o, e))
  | item {o : Nat} {item rest : Bytes} {items : List (Nat × Bytes)} {failure : Option (Nat × Error)}
      (hitem : WellFormed options item)
      (hrest : Splits options (o + item.length) rest items failure) :
      Splits options o (item ++ rest) ((o, item) :: items) failure

def joined (items : List (Nat × Bytes)) : Bytes := items.flatMap Prod.snd

namespace Splits

variable {options : Options} {o : Nat} {data : Bytes} {items : List (Nat × Bytes)}
  {failure : Option (Nat × Error)}

/-- Each of the items is one by itself. -/
theorem wellFormed (h : Splits options o data items failure) :
    ∀ p ∈ items, WellFormed options p.2 := by
  induction h with
  | ended => simp
  | failed => simp
  | item hitem _ ih => exact List.forall_mem_cons.mpr ⟨hitem, ih⟩

/-- Each item stands behind all that come before it. -/
theorem offset_eq (h : Splits options o data items failure) :
    ∀ i p, items[i]? = some p → p.1 = o + (joined (items.take i)).length := by
  induction h with
  | ended => simp
  | failed => simp
  | @item o item rest items failure _ _ ih =>
    intro i p hp
    cases i with
    | zero =>
      cases hp
      rfl
    | succ i =>
      calc
        p.1 = o + item.length + (joined (items.take i)).length := ih i p hp
        _ = o + (item.length + (joined (items.take i)).length) := Nat.add_assoc ..
        _ = o + (joined (((o, item) :: items).take (i + 1))).length := by
          rw [List.take_succ_cons, joined, joined, List.flatMap_cons, List.length_append]

/-- What is behind the items is nothing, or begins with no item. -/
theorem exists_rest (h : Splits options o data items failure) :
    ∃ rest, data = joined items ++ rest ∧ (failure = none → rest = []) ∧
      ∀ q e, failure = some (q, e) →
        q = o + (joined items).length ∧ rest ≠ [] ∧ itemLength options rest = .error e := by
  induction h with
  | ended o => exact ⟨[], rfl, fun _ => rfl, nofun⟩
  | @failed o data e hdata h =>
    refine ⟨data, rfl, nofun, ?_⟩
    rintro q e' ⟨⟩
    exact ⟨rfl, hdata, h⟩
  | @item o item rest items failure _ _ ih =>
    obtain ⟨behind, hrest, hended, hfailed⟩ := ih
    refine ⟨behind, ?_, hended, ?_⟩
    · rw [hrest, joined, joined, List.flatMap_cons, List.append_assoc]
    · intro q e hq
      obtain ⟨hoffset, hstop⟩ := hfailed q e hq
      refine ⟨?_, hstop⟩
      calc
        q = o + item.length + (joined items).length := hoffset
        _ = o + (item.length + (joined items).length) := Nat.add_assoc ..
        _ = o + (joined ((o, item) :: items)).length := by
          rw [joined, joined, List.flatMap_cons, List.length_append]

end Splits

section Steps

variable {options : Options} {s t : MemoryInput} {item : Bytes}

theorem WellFormed.ne_nil (h : WellFormed options item) : item ≠ [] := by
  rintro rfl
  obtain ⟨t, ht, hadv⟩ := Accepts.skipItem h (MemoryInput.ofBytes []) [] rfl
  have hlt := (Consumes.skipItem options).lt_of_ok ht
  rw [hadv.of_nil] at hlt
  exact Nat.lt_irrefl _ hlt

theorem WellFormed.itemLength_append (h : WellFormed options item) (rest : Bytes) :
    itemLength options (item ++ rest) = .ok item.length := by
  rw [itemLength_eq_map, decodeBytes_of_accepts (.skipItem h) rest]
  rfl

/-- What is left of an input is measured as it would be by itself. -/
theorem abreast_stream (s : MemoryInput) :
    Abreast s.offset [] (MemoryInput.ofBytes (stream s)) s where
  ready := trivial
  ready' := trivial
  stream_eq := (List.append_nil _).symm
  position_eq := rfl

/-- Skipping passes over an item, or fails as it does on what is left. -/
theorem skipItem_cases (options : Options) (s : MemoryInput) :
    (∃ item t, skipItem options s = .ok () t ∧ Advances s item t ∧ WellFormed options item) ∨
    ∃ e t, skipItem options s = .error e t ∧ itemLength options (stream s) = .error e := by
  cases hs : skipItem options s with
  | ok _ t =>
    obtain ⟨item, hadv, hitem⟩ := Reads.skipItem options s () t hs
    exact Or.inl ⟨item, t, rfl, hadv, hitem⟩
  | error e t =>
    have hat := (follows_skipItem (c := .within s.offset []) options).at_rel _ _ (abreast_stream s)
    refine Or.inr ⟨e, t, rfl, ?_⟩
    rw [itemLength_eq_error_iff, decodeBytes_eq_error_iff]
    cases halone : skipItem options (MemoryInput.ofBytes (stream s)) with
    | ok _ u =>
      obtain ⟨v, hv, -⟩ := hat.ok halone trivial
      rw [hs] at hv
      cases hv
    | error e' u =>
      rcases hat.error halone trivial with hexcused | ⟨v, hv, -⟩
      · -- Bytes are not missed for want of what is behind, since nothing is.
        exact absurd rfl (Standing.excused_within hexcused).1
      · rw [hs] at hv
        cases hv
        exact ⟨u, rfl⟩

theorem Sequence.between_eq (h : Advances s item t) : Sequence.between s t = item := by
  have hstream : s.rest.toList = item ++ stream t := h.1
  have hoffset : t.offset = s.offset + item.length := h.2
  rw [Sequence.between, hstream, hoffset, Nat.add_sub_cancel_left, List.take_left]

theorem MemoryInput.isEmpty_iff (s : MemoryInput) : s.isEmpty = true ↔ stream s = [] := by
  have hsize : s.rest.size = (stream s).length := s.rest.size_eq
  rw [isEmpty, beq_iff_eq, hsize, List.length_eq_zero_iff]

/-- An item that is passed over stands in front of the items of the rest. -/
theorem Advances.splits {items : List (Nat × Bytes)} {failure : Option (Nat × Error)}
    (hadv : Advances s item t) (hitem : WellFormed options item)
    (h : Splits options t.offset (stream t) items failure) :
    Splits options s.offset (stream s) ((s.offset, item) :: items) failure := by
  have hoffset : t.offset = s.offset + item.length := hadv.2
  rw [hoffset] at h
  rw [hadv.1]
  exact .item hitem h

/-- An input in front of its parts is at its end, or no item can be passed over, or the first of
them can be. -/
theorem Splits.skipItem_cases {items : List (Nat × Bytes)} {failure : Option (Nat × Error)}
    (h : Splits options s.offset (stream s) items failure) :
    stream s = [] ∧ items = [] ∨
    (∃ e t, skipItem options s = .error e t) ∧ items = [] ∨
    ∃ item t items', stream s ≠ [] ∧ skipItem options s = .ok () t ∧ Advances s item t ∧
      items = (s.offset, item) :: items' ∧
      Splits options t.offset (stream t) items' failure := by
  generalize ho : s.offset = o at h
  generalize hdata : stream s = data at h
  cases h with
  | ended => exact Or.inl ⟨rfl, rfl⟩
  | failed _ hfailed =>
    rcases CborCodec.skipItem_cases options s with ⟨item, t, -, hadv, hitem⟩ | ⟨e, t, ht, -⟩
    · rw [← hdata, hadv.1, hitem.itemLength_append] at hfailed
      cases hfailed
    · exact Or.inr (Or.inl ⟨⟨e, t, ht⟩, rfl⟩)
  | @item _ item rest items failure hitem hrest =>
    obtain ⟨t, ht, hadv⟩ := Accepts.skipItem hitem s rest hdata
    have hoffset : t.offset = s.offset + item.length := hadv.2
    have hstream : stream t = rest := List.append_cancel_left (hadv.1.symm.trans hdata)
    refine Or.inr (Or.inr ⟨item, t, items, ?_, ht, hadv, rfl, ?_⟩)
    · exact List.append_ne_nil_of_left_ne_nil hitem.ne_nil rest
    · rwa [hoffset, ho, hstream]

/-- What a copy has written is the item that skipping passes over. -/
theorem skipItem_of_copyItem {r : MemoryInput × GrowingOutput}
    (h : copyItem options (s, GrowingOutput.ofCapacity 0) = .ok () r) :
    ∃ t, skipItem options s = .ok () t ∧ Advances s r.2.toBytes t := by
  obtain ⟨bs, hadv, hwritten⟩ := copied_copyItem options (s, GrowingOutput.ofCapacity 0)
  obtain ⟨item, hmoved, hitem⟩ := Reads.copyItem options _ _ _ h
  rw [h] at hadv hwritten
  have hbytes : r.2.toBytes = bs := hwritten
  have hsame : bs = item := hadv.eq_left hmoved
  rw [hbytes, hsame]
  exact Accepts.skipItem hitem s _ hmoved.1

/-- A growing output takes writes as far as there is memory. -/
theorem tries_makeAll (ws : List Write) : Tries (Write.makeAll ws) (Write.bytesOf ws) := by
  induction ws with
  | nil => exact .nothing
  | cons w ws ih =>
    have hw : Tries w.make w.bytes := by
      rw [w.make_eq_putHead]
      exact .putHead w.bytes
    exact hw.seq ih

/-- An item that skipping passes over is copied, unless its copy is more than memory holds. -/
theorem copyItem_of_skipItem (hskip : skipItem options s = .ok () t) (hadv : Advances s item t) :
    (∃ r, copyItem options (s, GrowingOutput.ofCapacity 0) = .ok () r ∧ r.2.toBytes = item) ∨
    (∃ r, copyItem options (s, GrowingOutput.ofCapacity 0) = .error .notEnoughMemory r) ∧
      allocationLimit ≤ 2 * item.length + pieceRoom := by
  have hcopied {r : MemoryInput × GrowingOutput}
      (h : copyItem options (s, GrowingOutput.ofCapacity 0) = .ok () r) : r.2.toBytes = item := by
    obtain ⟨t', hskip', hadv'⟩ := skipItem_of_copyItem h
    rw [hskip] at hskip'
    cases hskip'
    exact hadv'.eq_left hadv
  by_cases hroom : 2 * item.length + pieceRoom < allocationLimit
  · have hspace : Recording.HasSpace (GrowingOutput.ofCapacity 0)
        (position (final (skipItem options s)) - position s) := by
      rw [hskip, final_ok, hadv.2, Nat.add_sub_cancel_left]
      exact GrowingOutput.hasRoom_empty hroom
    obtain ⟨houtcome, -⟩ := copyItem_eq_skipItem hspace
    rw [hskip] at houtcome
    have hcopy := eq_ok_of_outcome houtcome
    exact Or.inl ⟨_, hcopy, hcopied hcopy⟩
  · -- The walk writes what it would write anywhere, and a write fails for want of memory only.
    obtain ⟨ws, r, hws⟩ := Scripted.walkItem options [] s
    rcases tries_makeAll ws (GrowingOutput.ofCapacity 0) with ⟨o, ho, -⟩ | ⟨o, ho⟩
    · have hcopy := hws.written ho
      obtain ⟨k, hk⟩ := Scripted.makeAll_nowhere ws {}
      have hnowhere := hws.written hk
      rw [← copyItem_eq] at hcopy hnowhere
      rw [skipItem, hnowhere] at hskip
      cases r with
      | error e j => cases hskip
      | ok _ j => exact Or.inl ⟨(j, o), hcopy, hcopied hcopy⟩
    · obtain ⟨u, hu⟩ := hws.refused ho
      rw [← copyItem_eq] at hu
      exact Or.inr ⟨⟨_, hu⟩, Nat.le_of_not_lt hroom⟩

end Steps

namespace Sequence

variable {options : Options} {items : List (Nat × Bytes)} {failure : Option (Nat × Error)}

namespace Items

/-- A step that has not been preceded by a failure: there is nothing left, or the next item is
passed over, or it fails as it would by itself. -/
theorem next_cases (it : Items) (h : it.failed = false) :
    (stream it.input = [] ∧ it.next = (none, it)) ∨
    (∃ item t, Advances it.input item t ∧ WellFormed it.walker.options item ∧
      it.next = (some (.ok (it.input.offset, item)), ⟨t, it.walker.clear, false⟩)) ∨
    ∃ e t, stream it.input ≠ [] ∧ itemLength it.walker.options (stream it.input) = .error e ∧
      it.next = (some (.error (it.input.offset, e)), ⟨t, it.walker.clear, true⟩) := by
  unfold next
  by_cases hempty : it.input.isEmpty = true
  · exact Or.inl ⟨(MemoryInput.isEmpty_iff _).mp hempty, if_pos (Or.inr hempty)⟩
  · have hgo : ¬(it.failed = true ∨ it.input.isEmpty = true) := by
      rw [h]
      exact not_or_intro Bool.false_ne_true hempty
    rw [if_neg hgo, Transcriber.skipItem_apply, onSecond]
    rcases skipItem_cases it.walker.options it.input with
      ⟨item, t, ht, hadv, hitem⟩ | ⟨e, t, ht, he⟩
    · refine Or.inr (Or.inl ⟨item, t, hadv, hitem, ?_⟩)
      simp only [ht, between_eq hadv, h]
    · refine Or.inr (Or.inr ⟨e, t, mt (MemoryInput.isEmpty_iff _).mpr hempty, he, ?_⟩)
      simp only [ht]

/-- What is yielded by and by, until nothing more is and the state stays as it is. -/
inductive Yields : Items → List (Except (Nat × Error) (Nat × Bytes)) → Prop
  | done {it : Items} (h : it.next = (none, it)) : Yields it []
  | more {it it' : Items} {entry : Except (Nat × Error) (Nat × Bytes)}
      {entries : List (Except (Nat × Error) (Nat × Bytes))} (h : it.next = (some entry, it'))
      (hrest : Yields it' entries) : Yields it (entry :: entries)

theorem collect_eq (done : Array (Nat × Bytes)) (it : Items) :
    it.collect done = match it.next with
      | (none, _) => ⟨done, none⟩
      | (some (.error failure), _) => ⟨done, some failure⟩
      | (some (.ok item), it') => it'.collect (done.push item) := by
  rw [collect]
  split <;> simp only [*]

end Items

def Parts.entries (parts : Parts) : List (Except (Nat × Error) (Nat × Bytes)) :=
  parts.items.toList.map Except.ok ++ (parts.failure.map Except.error).toList

namespace Items

/-- The parts that are collected are yielded one by one, and are those of what is left. -/
theorem exists_collect (it : Items) (hfailed : it.failed = false) :
    ∃ items failure, Splits it.walker.options it.input.offset (stream it.input) items failure ∧
      it.Yields (items.map Except.ok ++ (failure.map Except.error).toList) ∧
      ∀ done, it.collect done = ⟨done ++ items.toArray, failure⟩ := by
  induction hn : (stream it.input).length using Nat.strong_induction_on generalizing it with
  | _ n ih =>
    rcases it.next_cases hfailed with
      ⟨hnil, hnext⟩ | ⟨item, t, hadv, hitem, hnext⟩ | ⟨e, t, hne, he, hnext⟩
    · refine ⟨[], none, ?_, .done hnext, ?_⟩
      · rw [hnil]
        exact .ended _
      · intro done
        simp only [collect_eq, hnext, Array.append_empty]
    · have hlt := lt_of_next hnext
      rw [hn] at hlt
      obtain ⟨items, failure, hsplits, hyields, hcollect⟩ := ih _ hlt _ rfl rfl
      refine ⟨(it.input.offset, item) :: items, failure, hadv.splits hitem hsplits,
        .more hnext hyields, ?_⟩
      intro done
      rw [collect_eq, hnext]
      simp [hcollect]
    · have hlatched : (⟨t, it.walker.clear, true⟩ : Items).next = (none, _) :=
        if_pos (Or.inl rfl)
      refine ⟨[], some (it.input.offset, e), .failed hne he, .more hnext (.done hlatched), ?_⟩
      intro done
      simp only [collect_eq, hnext, Array.append_empty]

end Items

/-- Walking to the end of a sequence splits it, and yields what was found on the way. -/
theorem splits_split (options : Options) (data : Bytes) :
    Splits options 0 data (split options data).items.toList (split options data).failure ∧
      (Items.ofBytes options data).Yields (split options data).entries := by
  obtain ⟨items, failure, hsplits, hyields, hcollect⟩ :=
    (Items.ofBytes options data).exists_collect rfl
  rw [Parts.entries, split, hcollect, Array.empty_append]
  exact ⟨hsplits, hyields⟩

/-- Items are skipped up to the index, or there are not so many. -/
theorem skipItems_cases {w : Transcriber} {s : MemoryInput} (index first : Nat)
    (h : Splits w.options s.offset (stream s) items failure) :
    (∃ w' t, skipItems index first (w, s) = .ok (w', t) ∧ w'.options = w.options ∧
      Splits w.options t.offset (stream t) (items.drop index) failure) ∨
    (∃ e, skipItems index first (w, s) = .error e) ∧ items.length < index := by
  induction index generalizing first w s items with
  | zero => exact Or.inl ⟨w, s, rfl, rfl, h⟩
  | succ index ih =>
    rw [skipItems, Transcriber.skipItem_apply, onSecond]
    rcases h.skipItem_cases with
      ⟨hnil, rfl⟩ | ⟨⟨e, t, ht⟩, rfl⟩ | ⟨item, t, items, hne, ht, hadv, rfl, hrest⟩
    · rw [if_pos ((MemoryInput.isEmpty_iff s).mpr hnil)]
      exact Or.inr ⟨⟨_, rfl⟩, index.succ_pos⟩
    · refine Or.inr ⟨?_, index.succ_pos⟩
      split
      · exact ⟨_, rfl⟩
      · simp only [ht]
        exact ⟨_, rfl⟩
    · rw [if_neg (mt (MemoryInput.isEmpty_iff s).mp hne)]
      simp only [ht]
      rcases ih (w := w.clear) (first + 1) hrest with hskipped | ⟨herror, hlt⟩
      · exact Or.inl hskipped
      · exact Or.inr ⟨herror, Nat.succ_lt_succ hlt⟩

/-- The part at an index is extracted, unless its copy is more than memory holds; where there is no
part there, nothing is. -/
theorem extract_cases {data : Bytes} (h : Splits options 0 data items failure) (index : Nat) :
    (∃ e, extract options data index = .error e) ∧ items[index]? = none ∨
    ∃ p, items[index]? = some p ∧ (extract options data index = .ok p ∨
      extract options data index = .error (.invalid index p.1 .notEnoughMemory) ∧
        allocationLimit ≤ 2 * p.2.length + pieceRoom) := by
  unfold extract
  rw [← List.head?_drop]
  rcases skipItems_cases (w := { options := options }) (s := .ofBytes data) index 0 h with
    ⟨w, t, hskip, rfl, hrest⟩ | ⟨⟨e, hskip⟩, hlt⟩
  · simp only [hskip, Transcriber.copyItem_apply, onSecond]
    rcases hrest.skipItem_cases with
      ⟨hnil, hlater⟩ | ⟨⟨e, v, hv⟩, hlater⟩ | ⟨item, v, later, hne, hv, hadv, hlater, -⟩
    · rw [if_pos ((MemoryInput.isEmpty_iff t).mpr hnil), hlater]
      exact Or.inl ⟨⟨_, rfl⟩, rfl⟩
    · rw [hlater]
      refine Or.inl ⟨?_, rfl⟩
      split
      · exact ⟨_, rfl⟩
      · cases hcopy : copyItem w.options (t, GrowingOutput.ofCapacity 0) with
        | error e r => exact ⟨_, rfl⟩
        | ok _ r =>
          obtain ⟨u, hu, -⟩ := skipItem_of_copyItem hcopy
          rw [hv] at hu
          cases hu
    · rw [if_neg (mt (MemoryInput.isEmpty_iff t).mp hne), hlater]
      refine Or.inr ⟨(t.offset, item), rfl, ?_⟩
      rcases copyItem_of_skipItem hv hadv with ⟨r, hr, hbytes⟩ | ⟨⟨r, hr⟩, hfull⟩
      · simp only [hr, hbytes]
        exact Or.inl trivial
      · simp only [hr]
        exact Or.inr ⟨trivial, hfull⟩
  · rw [hskip, List.drop_eq_nil_of_le hlt.le]
    exact Or.inl ⟨⟨e, rfl⟩, rfl⟩

/-- The items of data and their offsets: none is empty and each is one by itself, they lie end to
end from the start of the data, and if they do not reach its end there is no item there. -/
structure Partition (options : Options) (data : Bytes) (items : List (Nat × Bytes))
    (failure : Option (Nat × Error)) : Prop where
  measured : ∀ p ∈ items, p.2 ≠ [] ∧ itemLength options p.2 = .ok p.2.length
  front : joined items <+: data
  offset_eq : ∀ i p, items[i]? = some p → p.1 = (joined (items.take i)).length
  ended : failure = none → joined items = data
  failed : ∀ o e, failure = some (o, e) →
    o = (joined items).length ∧ o < data.length ∧ itemLength options (data.drop o) = .error e

/-- Data that is split is partitioned into its items. -/
theorem partition_of_splits {data : Bytes} (h : Splits options 0 data items failure) :
    Partition options data items failure := by
  obtain ⟨rest, hdata, hended, hfailed⟩ := h.exists_rest
  constructor
  · intro p hp
    have hitem := h.wellFormed p hp
    have hlength := hitem.itemLength_append []
    rw [List.append_nil] at hlength
    exact ⟨hitem.ne_nil, hlength⟩
  · exact ⟨rest, hdata.symm⟩
  · intro i p hp
    rw [h.offset_eq i p hp, Nat.zero_add]
  · intro hnone
    rw [hdata, hended hnone, List.append_nil]
  · intro o e hsome
    obtain ⟨hoffset, hne, hstop⟩ := hfailed o e hsome
    rw [Nat.zero_add] at hoffset
    have hpos : 0 < rest.length := List.length_pos_iff.mpr hne
    refine ⟨hoffset, ?_, ?_⟩
    · rw [hdata, hoffset, List.length_append]
      exact Nat.lt_add_of_pos_right hpos
    · rw [hdata, hoffset, List.drop_left]
      exact hstop

theorem entries_eq_ok_iff {parts : Parts} {index : Nat} {p : Nat × Bytes} :
    parts.entries[index]? = some (.ok p) ↔ parts.items.toList[index]? = some p := by
  rw [Parts.entries, List.getElem?_append]
  split
  · rw [List.getElem?_map]
    cases parts.items.toList[index]? <;> simp
  · next hge =>
    rw [List.length_map, not_lt] at hge
    rw [List.getElem?_eq_none hge, Option.toList_map, List.getElem?_map]
    cases parts.failure.toList[index - (parts.items.toList.map Except.ok).length]? <;> simp

/-- A walk over any data yields its parts one by one and then stays where it is: the items in
front, and behind them the failure if they do not reach the end. What is extracted at an index is
the item that is yielded there, and it is extracted unless its copy is more than memory holds. -/
theorem split_partitions (options : Options) (data : Bytes) :
    Partition options data (split options data).items.toList (split options data).failure ∧
      (Items.ofBytes options data).Yields (split options data).entries ∧
      ∀ i p, (extract options data i = .ok p → (split options data).entries[i]? = some (.ok p)) ∧
        ((split options data).entries[i]? = some (.ok p) → extract options data i = .ok p ∨
          extract options data i = .error (.invalid i p.1 .notEnoughMemory) ∧
            allocationLimit ≤ 2 * p.2.length + pieceRoom) := by
  obtain ⟨hsplits, hyields⟩ := splits_split options data
  refine ⟨partition_of_splits hsplits, hyields, ?_⟩
  intro i p
  rw [entries_eq_ok_iff]
  rcases extract_cases hsplits i with ⟨⟨e, he⟩, hnone⟩ | ⟨q, hq, hextract⟩
  · rw [he, hnone]
    exact ⟨nofun, nofun⟩
  · rw [hq]
    constructor
    · intro hok
      rcases hextract with hitem | ⟨hfull, -⟩
      · rw [hok] at hitem
        cases hitem
        rfl
      · rw [hok] at hfull
        cases hfull
    · intro hp
      cases hp
      exact hextract

/-- A number, an array of two and an open array, before a text that is cut short. -/
theorem split_before_cut :
    (split {} [0x01, 0x82, 0x01, 0x02, 0x9F, 0xFF, 0x61]).entries =
        [.ok (0, [0x01]), .ok (1, [0x82, 0x01, 0x02]), .ok (4, [0x9F, 0xFF]),
          .error (6, .missingData)] ∧
      itemLength {} [0x61] = .error .missingData ∧
      extract {} [0x01, 0x82, 0x01, 0x02, 0x9F, 0xFF, 0x61] 1 = .ok (1, [0x82, 0x01, 0x02]) := by
  obtain ⟨hpartition, -, hextract⟩ :=
    split_partitions {} [0x01, 0x82, 0x01, 0x02, 0x9F, 0xFF, 0x61]
  have hentries : (split {} [0x01, 0x82, 0x01, 0x02, 0x9F, 0xFF, 0x61]).entries =
      [.ok (0, [0x01]), .ok (1, [0x82, 0x01, 0x02]), .ok (4, [0x9F, 0xFF]),
        .error (6, .missingData)] := by decide +kernel
  have hfailure : (split {} [0x01, 0x82, 0x01, 0x02, 0x9F, 0xFF, 0x61]).failure =
      some (6, .missingData) := by decide +kernel
  obtain ⟨-, -, hstop⟩ := hpartition.failed 6 .missingData hfailure
  refine ⟨hentries, hstop, ?_⟩
  rcases (hextract 1 (1, [0x82, 0x01, 0x02])).2 (by rw [hentries]; rfl) with hitem | ⟨-, hfull⟩
  · exact hitem
  · exact absurd hfull (by decide)

end Sequence

end CborCodec
