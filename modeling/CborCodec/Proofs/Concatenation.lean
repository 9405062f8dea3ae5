import CborCodec.Proofs.Splitting
import CborCodec.Proofs.Typing
import Mathlib.Data.List.Forall2
/-!
Sequences are decoded piece by piece. No decoder looks behind its item, so the loop goes over a
front of the data as it does over the front alone, and over the rest as it does over the rest; and
the items it decodes are those that a walk over the data passes.
-/

namespace CborCodec

namespace Sequence

section Loop

variable {α : Type} {read : EStateM Error MemoryInput α} {hread : Consumes 1 read}
  {s t r : MemoryInput} {done : Array α} {a : α} {e : Error}

theorem decodeAll_nil (hs : stream s = []) : decodeAll read hread done s = .ok done := by
  rw [decodeAll, if_pos ((MemoryInput.isEmpty_iff s).mpr hs)]

/-- The first item that fails ends the sequence. -/
theorem decodeAll_error (hs : stream s ≠ []) (h : read s = .error e t) :
    decodeAll read hread done s = .error e := by
  rw [decodeAll, if_neg (mt (MemoryInput.isEmpty_iff s).mp hs)]
  split
  · next hrun =>
    rw [h] at hrun
    cases hrun
    rfl
  · next hrun =>
    rw [h] at hrun
    cases hrun

theorem decodeAll_ok (h : read s = .ok a t) :
    decodeAll read hread done s = decodeAll read hread (done.push a) t := by
  have hs : stream s ≠ [] := by
    intro hnil
    have hlt := hread.lt_of_ok h
    rw [hnil] at hlt
    exact Nat.not_lt_zero _ hlt
  rw [decodeAll, if_neg (mt (MemoryInput.isEmpty_iff s).mp hs)]
  split
  · next hrun =>
    rw [h] at hrun
    cases hrun
  · next hrun =>
    rw [h] at hrun
    cases hrun
    rfl

/-- What has been decoded before is put in front of what is decoded from here on. -/
theorem decodeAll_done (done : Array α) (s : MemoryInput) :
    decodeAll read hread done s = (decodeAll read hread #[] s).map (done ++ ·) := by
  induction hn : (stream s).length using Nat.strong_induction_on generalizing done s with
  | _ n ih =>
    by_cases hs : stream s = []
    · rw [decodeAll_nil hs, decodeAll_nil hs, Except.map, Array.append_empty]
    cases hrun : read s with
    | error e t => rw [decodeAll_error hs hrun, decodeAll_error hs hrun, Except.map]
    | ok a t =>
      have hlt : (stream t).length < n := hn ▸ hread.lt_of_ok hrun
      have hfront := ih _ hlt (done.push a) t rfl
      have hone := ih _ hlt (#[].push a) t rfl
      rw [decodeAll_ok hrun, decodeAll_ok hrun, hfront, hone]
      cases decodeAll read hread #[] t with
      | error e => rfl
      | ok rest => simp [Except.map]

inductive Turns (read : EStateM Error MemoryInput α) :
    Nat → Array α → MemoryInput → Except Error (Array α) → Prop
  | ended {done : Array α} {s : MemoryInput} (hs : stream s = []) : Turns read 0 done s (.ok done)
  | failed {done : Array α} {s t : MemoryInput} {e : Error} (hs : stream s ≠ [])
      (h : read s = .error e t) : Turns read 1 done s (.error e)
  | turn {n : Nat} {done : Array α} {s t : MemoryInput} {a : α} {out : Except Error (Array α)}
      (h : read s = .ok a t) (hrest : Turns read n (done.push a) t out) :
      Turns read (n + 1) done s out

/-- The loop ends, after no more turns than there are bytes. -/
theorem exists_turns (hread : Consumes 1 read) (done : Array α) (s : MemoryInput) :
    ∃ n ≤ (stream s).length, Turns read n done s (decodeAll read hread done s) := by
  induction hn : (stream s).length using Nat.strong_induction_on generalizing done s with
  | _ n ih =>
    by_cases hs : stream s = []
    · rw [decodeAll_nil hs]
      exact ⟨0, Nat.zero_le n, .ended hs⟩
    have hpos : 0 < n := hn ▸ List.length_pos_iff.mpr hs
    cases hrun : read s with
    | error e t =>
      rw [decodeAll_error hs hrun]
      exact ⟨1, hpos, .failed hs hrun⟩
    | ok a t =>
      have hlt : (stream t).length < n := hn ▸ hread.lt_of_ok hrun
      obtain ⟨m, hm, hturns⟩ := ih _ hlt (done.push a) t rfl
      rw [decodeAll_ok hrun]
      exact ⟨m + 1, hm.trans_lt hlt, .turn hrun hturns⟩

section Abreast

variable (hbeside : ∀ c : Standing MemoryInput, Follows (.abreast c) read read) {ahead : Nat}
  {more : Bytes}
include hbeside

/-- The loop sees only what is left, not where it stands. -/
theorem decodeAll_alone (h : Abreast ahead [] s r) (done : Array α) :
    decodeAll read hread done r = decodeAll read hread done s := by
  induction hn : (stream s).length using Nat.strong_induction_on generalizing done s r with
  | _ n ih =>
    have hstream : stream r = stream s := by rw [h.stream_eq, List.append_nil]
    by_cases hs : stream s = []
    · rw [decodeAll_nil hs, decodeAll_nil (hstream.trans hs)]
    have hr : stream r ≠ [] := hstream ▸ hs
    have hat := (hbeside (.within ahead [])).at_rel s r h
    cases hrun : read s with
    | error e t =>
      rcases hat.error hrun trivial with hexcused | ⟨u, hu, -⟩
      · exact absurd rfl (Standing.excused_within hexcused).1
      · rw [decodeAll_error hs hrun, decodeAll_error hr hu]
    | ok a t =>
      obtain ⟨u, hu, hafter⟩ := hat.ok hrun trivial
      have hlt : (stream t).length < n := hn ▸ hread.lt_of_ok hrun
      rw [decodeAll_ok hrun, decodeAll_ok hu]
      exact ih _ hlt hafter _ rfl

theorem decodeAll_stream (done : Array α) (s : MemoryInput) :
    decodeAll read hread done s = decodeAll read hread done (MemoryInput.ofBytes (stream s)) :=
  decodeAll_alone hbeside (abreast_stream s) done

/-- Where the loop would get to the end of a front, it goes on with what is behind the front. -/
theorem exists_decodeAll_behind (h : Abreast ahead more s r) {out : Array α}
    (hs : decodeAll read hread done s = .ok out) :
    ∃ u, stream u = more ∧ decodeAll read hread done r = decodeAll read hread out u := by
  induction hn : (stream s).length using Nat.strong_induction_on generalizing done s r with
  | _ n ih =>
    by_cases hnil : stream s = []
    · rw [decodeAll_nil hnil] at hs
      cases hs
      exact ⟨r, by rw [h.stream_eq, hnil, List.nil_append], rfl⟩
    have hat := (hbeside (.within ahead more)).at_rel s r h
    cases hrun : read s with
    | error e t =>
      rw [decodeAll_error hnil hrun] at hs
      cases hs
    | ok a t =>
      -- The item ends within the front, so the two loops stand abreast behind it again.
      obtain ⟨u, hu, hafter⟩ := hat.ok hrun trivial
      have hlt : (stream t).length < n := hn ▸ hread.lt_of_ok hrun
      rw [decodeAll_ok hrun] at hs
      rw [decodeAll_ok hu]
      exact ih _ hlt hafter hs rfl

end Abreast

end Loop

section Appending

variable {options : Options} {t : Target} {a b : Bytes}

/-- Behind a front that is decoded, the rest is decoded as it is by itself. -/
theorem decode_append {xs : Array t.Carrier} (h : decode options t a = .ok xs) (b : Bytes) :
    decode options t (a ++ b) = (decode options t b).map (xs ++ ·) := by
  have hbeside (c : Standing MemoryInput) :
      Follows (.abreast c) (t.decode options) (t.decode options) := t.abreast_decode
  unfold decode at h ⊢
  obtain ⟨u, rfl, hbehind⟩ := exists_decodeAll_behind hbeside (abreast_append a b) h
  rw [hbehind, decodeAll_stream hbeside, decodeAll_done]

/-- What a reader goes over and what it leaves are all of the data. -/
theorem offset_of_read {α : Type} {read : EStateM Error MemoryInput α} {data : Bytes} {x : α}
    {u : MemoryInput} (hread : Consumes 1 read) (h : read (MemoryInput.ofBytes data) = .ok x u) :
    1 ≤ u.offset ∧ u.offset + (stream u).length = data.length := by
  obtain ⟨bs, hadv, hbs⟩ := hread (MemoryInput.ofBytes data)
  rw [h, final_ok] at hadv
  have hoffset : u.offset = bs.length := hadv.2.trans (Nat.zero_add _)
  have hlength : data.length = bs.length + (stream u).length := hadv.length_eq
  rw [hoffset]
  exact ⟨hbs x u h, hlength.symm⟩

theorem decodeBytes_bounds {α : Type} {read : EStateM Error MemoryInput α} {data : Bytes}
    (hread : Consumes 1 read) {x : α} {n : Nat} (h : decodeBytes read data = .ok (x, n)) :
    1 ≤ n ∧ n ≤ data.length := by
  obtain ⟨u, hu, rfl⟩ := decodeBytes_eq_ok_iff.mp h
  obtain ⟨hpos, hall⟩ := offset_of_read hread hu
  exact ⟨hpos, Nat.le.intro hall⟩

end Appending

section Values

variable {options : Options} {data item rest : Bytes} {v : Target.value.Carrier} {n : Nat}

/-- An entry of a sequence is all of an item with this value. -/
def IsItem (options : Options) (entry : Nat × Bytes) (v : Target.value.Carrier) : Prop :=
  decodeBytes (Target.value.decode options) entry.2 = .ok (v, entry.2.length)

theorem shadows_decode (options : Options) (s : MemoryInput) :
    ShadowsAt (Excused options options.maxDepth.toNat (stream s).length)
      (Target.value.decode options) (fun _ => resume options []) (walkItem options []) s
      ({} : Nowhere) :=
  shadows_decodeWithin options options.maxDepth.toNat [] s ({} : Nowhere)

/-- What is decoded at the front of data is what is measured there. -/
theorem itemLength_of_decode (h : decodeBytes (Target.value.decode options) data = .ok (v, n)) :
    itemLength options data = .ok n := by
  obtain ⟨u, hu, rfl⟩ := decodeBytes_eq_ok_iff.mp h
  have hshadows := shadows_decode options (MemoryInput.ofBytes data)
  rw [ShadowsAt, hu] at hshadows
  obtain ⟨o, ho⟩ := hshadows
  rw [resume_nil] at ho
  exact itemLength_of_walk ho

/-- An item lacks no bytes, whatever else the decoder may find wrong with it. -/
theorem not_truncation_of_wellFormed (hitem : WellFormed options item) {e : Error}
    {t : MemoryInput} (h : Target.value.decode options (MemoryInput.ofBytes item) = .error e t) :
    ¬Truncation e := by
  intro htruncated
  have hshadows := shadows_decode options (MemoryInput.ofBytes item)
  rw [ShadowsAt, h] at hshadows
  rcases hshadows with hexcused | ⟨w, hw⟩
  · rcases htruncated with rfl | rfl <;> exact absurd hexcused id
  · -- The walk would miss the same bytes, and it goes over the whole item.
    have hwhole := hitem.itemLength_append []
    rw [List.append_nil, itemLength_of_walk_error hw] at hwhole
    cases hwhole

/-- What an item decodes to in front of others, it decodes to alone. -/
theorem decode_alone (hitem : WellFormed options item)
    (h : decodeBytes (Target.value.decode options) (item ++ rest) = .ok (v, n)) :
    decodeBytes (Target.value.decode options) item = .ok (v, item.length) := by
  have hmeasured := itemLength_of_decode h
  rw [hitem.itemLength_append] at hmeasured
  obtain rfl : item.length = n := Except.ok.inj hmeasured
  -- By itself the item could only fail for want of the bytes behind it.
  obtain ⟨u, hu, hoffset⟩ := decodeBytes_eq_ok_iff.mp h
  have hfollows : Follows (.abreast (.within 0 rest)) (Target.value.decode options)
      (Target.value.decode options) := Target.abreast_decode .value
  have hat := hfollows.at_rel _ _ (abreast_append item rest)
  rw [decodeBytes_eq_ok_iff]
  cases halone : Target.value.decode options (MemoryInput.ofBytes item) with
  | ok w t =>
    obtain ⟨u', hu', hafter⟩ := hat.ok halone trivial
    rw [hu] at hu'
    cases hu'
    have hposition : u.offset = 0 + t.offset := hafter.position_eq
    exact ⟨t, rfl, by omega⟩
  | error e t =>
    rcases hat.error halone trivial with hexcused | ⟨u', hu', -⟩
    · have htruncated := (Standing.excused_within hexcused).2
      exact absurd htruncated (not_truncation_of_wellFormed hitem halone)
    · rw [hu] at hu'
      cases hu'

/-- Data that is all of an item is a sequence of one. -/
theorem decode_singleton {t : Target} {x : t.Carrier}
    (h : decodeBytes (t.decode options) data = .ok (x, data.length)) :
    decode options t data = .ok #[x] := by
  obtain ⟨u, hu, hoffset⟩ := decodeBytes_eq_ok_iff.mp h
  obtain ⟨-, hall⟩ := offset_of_read (t.consumes_decode options) hu
  have hend : stream u = [] := List.length_eq_zero_iff.mp (by omega)
  unfold decode
  rw [decodeAll_ok hu, decodeAll_nil hend]
  rfl

/-- Where nothing is decoded at the front of data, the data is no sequence. -/
theorem decode_refused {t : Target} {e : Error} (hdata : data ≠ [])
    (h : decodeBytes (t.decode options) data = .error e) : decode options t data = .error e := by
  obtain ⟨u, hu⟩ := decodeBytes_eq_error_iff.mp h
  unfold decode
  exact decodeAll_error hdata hu

/-- Data that is an item and more is decoded by decoding the item alone, and then the rest. -/
theorem decode_item_append {o : Nat} (hitem : WellFormed options item)
    (vs : Array Target.value.Carrier) :
    decode options .value (item ++ rest) = .ok vs ↔
      ∃ v ws, IsItem options (o, item) v ∧ decode options .value rest = .ok ws ∧
        vs = #[v] ++ ws := by
  constructor
  · intro h
    cases hfirst : decodeBytes (Target.value.decode options) (item ++ rest) with
    | error e =>
      have hne : item ++ rest ≠ [] := List.append_ne_nil_of_left_ne_nil hitem.ne_nil rest
      rw [decode_refused hne hfirst] at h
      cases h
    | ok first =>
      have halone : IsItem options (o, item) first.1 := decode_alone hitem hfirst
      rw [decode_append (decode_singleton halone) rest] at h
      cases hrest : decode options .value rest with
      | error e =>
        rw [hrest] at h
        cases h
      | ok ws =>
        rw [hrest] at h
        exact ⟨first.1, ws, halone, rfl, (Except.ok.inj h).symm⟩
  · rintro ⟨v, ws, halone, hrest, rfl⟩
    rw [decode_append (decode_singleton halone) rest, hrest]
    rfl

/-- Data in parts is decoded to the values of its items, where all of them have one and nothing
but items is there. -/
theorem decode_eq_ok_iff_of_splits {o : Nat} {items : List (Nat × Bytes)}
    {failure : Option (Nat × Error)} (h : Splits options o data items failure)
    (vs : Array Target.value.Carrier) :
    decode options .value data = .ok vs ↔
      failure = none ∧ List.Forall₂ (IsItem options) items vs.toList := by
  induction h generalizing vs with
  | ended o =>
    have hempty : decode options .value [] = .ok #[] := decodeAll_nil rfl
    rw [hempty, Except.ok.injEq, List.forall₂_nil_left_iff, Array.toList_eq_nil_iff]
    exact ⟨fun h => ⟨rfl, h.symm⟩, fun h => h.2.symm⟩
  | @failed o data e hdata herror =>
    refine iff_of_false ?_ (fun h => nomatch h.1)
    intro h
    cases hfirst : decodeBytes (Target.value.decode options) data with
    | ok first =>
      rw [itemLength_of_decode hfirst] at herror
      cases herror
    | error e' =>
      rw [decode_refused hdata hfirst] at h
      cases h
  | @item o item rest items failure hitem hrest ih =>
    rw [decode_item_append (o := o) hitem]
    constructor
    · rintro ⟨v, ws, hv, hws, rfl⟩
      obtain ⟨hended, hitems⟩ := (ih ws).mp hws
      rw [Array.toList_append]
      exact ⟨hended, .cons hv hitems⟩
    · rintro ⟨hended, hitems⟩
      obtain ⟨v, ws, hv, hws, hvs⟩ := List.forall₂_cons_left_iff.mp hitems
      refine ⟨v, ws.toArray, hv, (ih _).mpr ⟨hended, hws⟩, ?_⟩
      rw [← Array.toList_inj, hvs, Array.toList_append]
      rfl

/-- What a walk yields is settled by where it stands. -/
theorem Items.Yields.unique {it : Items} {xs ys : List (Except (Nat × Error) (Nat × Bytes))}
    (hx : it.Yields xs) (hy : it.Yields ys) : xs = ys := by
  induction hx generalizing ys with
  | done hnext =>
    cases hy with
    | done => rfl
    | more hnext' =>
      rw [hnext] at hnext'
      cases hnext'
  | more hnext _ ih =>
    cases hy with
    | done hnext' =>
      rw [hnext] at hnext'
      cases hnext'
    | more hnext' hrest =>
      rw [hnext] at hnext'
      cases hnext'
      rw [ih hrest]

/-- The entries are all items just where no failure is behind them. -/
theorem entries_eq_ok_map_iff {parts : Parts} {items : List (Nat × Bytes)} :
    parts.entries = items.map Except.ok ↔ parts.failure = none ∧ parts.items.toList = items := by
  unfold Parts.entries
  constructor
  · intro h
    cases hfailure : parts.failure with
    | none =>
      rw [hfailure, Option.map_none, Option.toList_none, List.append_nil] at h
      exact ⟨rfl, List.map_injective_iff.mpr (fun _ _ => Except.ok.inj) h⟩
    | some failure =>
      have hmem : Except.error failure ∈ items.map Except.ok := by
        rw [← h, hfailure]
        simp
      simp at hmem
  · rintro ⟨hnone, rfl⟩
    rw [hnone, Option.map_none, Option.toList_none, List.append_nil]

/-- A sequence of values is what a walk yields, item by item, where it yields nothing else. -/
theorem decode_eq_ok_iff_yields (options : Options) (data : Bytes)
    (vs : Array Target.value.Carrier) :
    decode options .value data = .ok vs ↔
      ∃ items : List (Nat × Bytes), (Items.ofBytes options data).Yields (items.map Except.ok) ∧
        List.Forall₂ (IsItem options) items vs.toList := by
  obtain ⟨hsplits, hyields⟩ := splits_split options data
  rw [decode_eq_ok_iff_of_splits hsplits]
  constructor
  · rintro ⟨hended, hitems⟩
    rw [entries_eq_ok_map_iff.mpr ⟨hended, rfl⟩] at hyields
    exact ⟨_, hyields, hitems⟩
  · rintro ⟨items, hall, hitems⟩
    obtain ⟨hended, rfl⟩ := entries_eq_ok_map_iff.mp (hyields.unique hall)
    exact ⟨hended, hitems⟩

end Values

/-- What holds of decoding sequences to a type: a front that decodes stays in front of whatever
the rest gives, each item takes a byte at least, and so the loop comes to an end. -/
structure Composes (options : Options) (t : Target) : Prop where
  ok : ∀ a b xs ys, decode options t a = .ok xs → decode options t b = .ok ys →
    decode options t (a ++ b) = .ok (xs ++ ys)
  error : ∀ a b xs e, decode options t a = .ok xs → decode options t b = .error e →
    decode options t (a ++ b) = .error e
  consumes : ∀ data x n, decodeBytes (t.decode options) data = .ok (x, n) →
    1 ≤ n ∧ n ≤ data.length
  ends : ∀ data, ∃ n ≤ data.length,
    Turns (t.decode options) n #[] (MemoryInput.ofBytes data) (decode options t data)

/-- Sequences compose, whatever they are decoded to; and those of values are decoded just where a
walk over the data yields items only, each with its value. -/
theorem sequences_compose (options : Options) :
    (∀ t : Target, Composes options t) ∧
      ∀ data vs, decode options .value data = .ok vs ↔
        ∃ items : List (Nat × Bytes), (Items.ofBytes options data).Yields (items.map Except.ok) ∧
          List.Forall₂ (IsItem options) items vs.toList := by
  refine ⟨fun t => ?_, decode_eq_ok_iff_yields options⟩
  constructor
  · intro a b xs ys ha hb
    rw [decode_append ha, hb]
    rfl
  · intro a b xs e ha hb
    rw [decode_append ha, hb]
    rfl
  · intro data x n h
    exact decodeBytes_bounds (t.consumes_decode options) h
  · intro data
    exact exists_turns (t.consumes_decode options) #[] (MemoryInput.ofBytes data)

/-- A number before an array of two, and before a text that is cut short. -/
theorem compose_behind_number :
    decode {} .value [0x01, 0x82, 0x01, 0x02] =
        .ok #[Value.unsigned 1, Value.array [.unsigned 1, .unsigned 2]] ∧
      decode {} .value [0x01, 0x61] = .error .missingData ∧
      ∃ items : List (Nat × Bytes), items.length = 2 ∧
        (Items.ofBytes {} [0x01, 0x82, 0x01, 0x02]).Yields (items.map Except.ok) := by
  obtain ⟨hcomposes, hyields⟩ := sequences_compose {}
  have hnumber : decode {} .value [0x01] = .ok #[Value.unsigned 1] := decode_singleton rfl
  have harray : decode {} .value [0x82, 0x01, 0x02] =
      .ok #[Value.array [.unsigned 1, .unsigned 2]] := decode_singleton rfl
  have hcut : decode {} .value [0x61] = .error .missingData :=
    decode_refused (List.cons_ne_nil _ _) rfl
  have hboth := (hcomposes .value).ok _ _ _ _ hnumber harray
  refine ⟨hboth, (hcomposes .value).error _ _ _ _ hnumber hcut, ?_⟩
  obtain ⟨items, hall, hitems⟩ := (hyields _ _).mp hboth
  exact ⟨items, hitems.length_eq, hall⟩

end Sequence

end CborCodec
