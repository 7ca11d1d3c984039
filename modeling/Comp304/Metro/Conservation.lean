import Comp304.Library.Lanes
import Comp304.Metro.Traffic

/-! No train is lost, doubled or overtaken. A run is accounted for by two
lists: the departures in the order of their numbers, and the entries into the
tunnel. Every step keeps the account, and the laws are read off it. -/
namespace Comp304.Metro
open Library.Lanes Library.Traces

/-- The trains have the numbers 0, 1, 2 and so on. -/
def Numbered (departed : List Train) : Prop :=
  departed.map Train.id = (List.range departed.length).map fun n : Nat => (n : Int)

namespace Numbered

variable {departed : List Train}

theorem snoc (numbered : Numbered departed) {train : Train} (next : train.id = departed.length) :
    Numbered (departed ++ [train]) := by
  unfold Numbered at numbered ⊢
  simp [List.range_succ, numbered, next]

theorem increasing (numbered : Numbered departed) :
    departed.Pairwise fun first second => first.id < second.id := by
  have ids : (departed.map Train.id).Pairwise (· < ·) := by
    rw [numbered, List.pairwise_map]
    exact List.pairwise_lt_range.imp Int.ofNat_lt.mpr
  exact List.pairwise_map.mp ids

theorem ids_distinct (numbered : Numbered departed) : (departed.map Train.id).Nodup :=
  List.pairwise_map.mpr (numbered.increasing.imp ne_of_lt)

theorem distinct (numbered : Numbered departed) : departed.Nodup := numbered.ids_distinct.of_map

theorem eq_of_id (numbered : Numbered departed) (first : train ∈ departed) (second : other ∈ departed)
    (same : train.id = other.id) : train = other :=
  List.inj_on_of_nodup_map numbered.ids_distinct first second same

theorem mem_iff (numbered : Numbered departed) {id : Int} :
    (∃ train ∈ departed, train.id = id) ↔ 0 ≤ id ∧ id < departed.length := by
  rw [← List.mem_map, numbered, List.mem_map]
  constructor
  · rintro ⟨n, listed, rfl⟩
    have bound := List.mem_range.mp listed
    omega
  · rintro ⟨low, high⟩
    exact ⟨id.toNat, List.mem_range.mpr (by omega), Int.toNat_of_nonneg low⟩

end Numbered

/-- The departures and the entries up to this instant, and what the state
records of them. -/
structure Account (state : ℕ → State) (k : ℕ) (st : State) (departed entered : List Train) : Prop where
  numbered : Numbered departed
  last : st.trainId + 1 = departed.length
  fifo : Fifo Train.source departed entered st.sectionQueue
  tunnel : ∀ train, st.inTunnel = some train → train ∈ entered
  named : st.named = entered.map fun train => toString train.id
  seen : ∀ id, Seen (State.Holds id) state k ↔ ∃ train ∈ entered, train.id = id
  records : ∀ train ∈ departed, ∃ record, st.trainsHashMap train.id = some record ∧
    record.id = train.id ∧ record.source = train.source ∧
    (record.arrivalTime ≠ -1 ↔ train ∈ entered ∧ st.inTunnel ≠ some train)
  keys : ∀ id record, st.trainsHashMap id = some record → ∃ train ∈ departed, train.id = id

namespace Account

variable {state : ℕ → State} {st : State} {departed entered : List Train}

theorem mem_departed (account : Account state k st departed entered) (member : train ∈ entered) :
    train ∈ departed := account.fifo.mem_arrived.mpr (Or.inl member)

theorem initial (start : state 0 = .initial) : Account state 0 .initial [] [] where
  numbered := rfl
  last := rfl
  fifo := Fifo.empty
  tunnel := fun _ inside => nomatch inside
  named := rfl
  seen := fun id => by simp [seen_zero, start, State.Holds, State.inTunnel, State.initial, ControlPoint.train]
  records := fun _ member => nomatch member
  keys := fun _ _ found => nomatch found

/-- The same train in the tunnel as before is no new entry. -/
theorem seen_same (account : Account state k (state k) departed entered)
    (tunnel : (state (k + 1)).inTunnel = (state k).inTunnel) (id : Int) :
    Seen (State.Holds id) state (k + 1) ↔ ∃ train ∈ entered, train.id = id := by
  rw [seen_succ, account.seen id]
  constructor
  · rintro (before | ⟨train, inside, named⟩)
    · exact before
    · exact ⟨train, account.tunnel train (tunnel ▸ inside), named⟩
  · exact Or.inl

theorem quiet (account : Account state k (state k) departed entered)
    (queues : (state (k + 1)).sectionQueue = (state k).sectionQueue)
    (records : (state (k + 1)).trainsHashMap = (state k).trainsHashMap)
    (last : (state (k + 1)).trainId = (state k).trainId)
    (tunnel : (state (k + 1)).inTunnel = (state k).inTunnel)
    (named : (state (k + 1)).named = (state k).named) :
    Account state (k + 1) (state (k + 1)) departed entered := by
  refine ⟨account.numbered, ?_, ?_, ?_, ?_, account.seen_same tunnel, ?_, ?_⟩
  · rw [last]
    exact account.last
  · rw [queues]
    exact account.fifo
  · rw [tunnel]
    exact account.tunnel
  · rw [named]
    exact account.named
  · rw [records, tunnel]
    exact account.records
  · rw [records]
    exact account.keys

/-- A train departs with the next number. -/
theorem depart (account : Account state k (state k) departed entered) (train : Train)
    (fresh : train.id = (state k).trainId + 1) (away : train.arrivalTime = -1)
    (queues : (state (k + 1)).sectionQueue = Function.update (state k).sectionQueue train.source
      ((state k).sectionQueue train.source ++ [train]))
    (records : (state (k + 1)).trainsHashMap =
      Function.update (state k).trainsHashMap train.id (some train))
    (last : (state (k + 1)).trainId = train.id)
    (tunnel : (state (k + 1)).inTunnel = (state k).inTunnel)
    (named : (state (k + 1)).named = (state k).named) :
    Account state (k + 1) (state (k + 1)) (departed ++ [train]) entered := by
  have number : train.id = departed.length := fresh.trans account.last
  have new : ∀ other ∈ departed, other.id ≠ train.id := by
    intro other member same
    have bound := (account.numbered.mem_iff.mp ⟨other, member, same⟩).2
    omega
  refine ⟨account.numbered.snoc number, ?_, ?_, ?_, ?_, account.seen_same tunnel, ?_, ?_⟩
  · simp [last, number]
  · rw [queues]
    exact account.fifo.arrive train
  · rw [tunnel]
    exact account.tunnel
  · rw [named]
    exact account.named
  · intro other member
    rw [records, tunnel]
    cases List.mem_append.mp member with
    | inl old =>
      rw [Function.update_of_ne (new other old)]
      exact account.records other old
    | inr added =>
      cases List.mem_singleton.mp added
      have absent : train ∉ entered := fun inside => new train (account.mem_departed inside) rfl
      exact ⟨train, Function.update_self .., rfl, rfl, by simp [away, absent]⟩
  · intro id record found
    rw [records] at found
    by_cases same : id = train.id
    · exact ⟨train, by simp, same.symm⟩
    · rw [Function.update_of_ne same] at found
      obtain ⟨other, member, named⟩ := account.keys id record found
      exact ⟨other, List.mem_append_left _ member, named⟩

/-- The front of a queue enters the tunnel. -/
theorem enter (account : Account state k (state k) departed entered)
    (front : (state k).sectionQueue source = train :: rest)
    (queues : (state (k + 1)).sectionQueue = Function.update (state k).sectionQueue source rest)
    (records : (state (k + 1)).trainsHashMap = (state k).trainsHashMap)
    (last : (state (k + 1)).trainId = (state k).trainId)
    (vacant : (state k).inTunnel = none) (tunnel : (state (k + 1)).inTunnel = some train)
    (named : (state (k + 1)).named = (state k).named ++ [toString train.id]) :
    Account state (k + 1) (state (k + 1)) departed (entered ++ [train]) := by
  have waits : train ∈ (state k).sectionQueue source := by
    rw [front]
    exact List.mem_cons_self
  have before : train ∉ entered := account.fifo.waiting_not_taken account.numbered.distinct waits
  refine ⟨account.numbered, by rw [last]; exact account.last, ?_, ?_, ?_, ?_, ?_,
    by rw [records]; exact account.keys⟩
  · rw [queues]
    exact account.fifo.take front
  · intro other inside
    cases Option.some.inj (tunnel.symm.trans inside)
    simp
  · simp [named, account.named]
  · intro id
    rw [seen_succ, account.seen id]
    simp [State.Holds, tunnel, or_and_right, exists_or]
  · intro other member
    obtain ⟨record, known, number, own, arrival⟩ := account.records other member
    refine ⟨record, by rw [records]; exact known, number, own, arrival.trans ?_⟩
    rw [vacant, tunnel]
    by_cases same : other = train
    · subst same
      simp [before]
    · have apart : train ≠ other := fun equal => same equal.symm
      simp [same, apart]

/-- The train in the tunnel leaves it. -/
theorem leave (account : Account state k (state k) departed entered)
    (inside : (state k).inTunnel = some train)
    (known : (state k).trainsHashMap train.id = some record) (now : Nat)
    (queues : (state (k + 1)).sectionQueue = (state k).sectionQueue)
    (records : (state (k + 1)).trainsHashMap = Function.update (state k).trainsHashMap train.id
      (some { record with arrivalTime := now + 1 }))
    (last : (state (k + 1)).trainId = (state k).trainId)
    (tunnel : (state (k + 1)).inTunnel = none)
    (named : (state (k + 1)).named = (state k).named) :
    Account state (k + 1) (state (k + 1)) departed entered := by
  have gone := account.tunnel train inside
  refine ⟨account.numbered, by rw [last]; exact account.last, by rw [queues]; exact account.fifo, ?_,
    by rw [named]; exact account.named, ?_, ?_, ?_⟩
  · rw [tunnel]
    exact fun _ found => nomatch found
  · intro id
    rw [seen_succ, account.seen id]
    simp [State.Holds, tunnel]
  · intro other member
    obtain ⟨found, knownOther, number, own, arrival⟩ := account.records other member
    rw [records, tunnel]
    by_cases same : other = train
    · subst same
      cases Option.some.inj (known.symm.trans knownOther)
      refine ⟨_, Function.update_self .., number, own, ?_⟩
      have late : (now : Int) + 1 ≠ -1 := by omega
      simp [gone, late]
    · have apart : other.id ≠ train.id := fun equal =>
        same (account.numbered.eq_of_id member (account.mem_departed gone) equal)
      refine ⟨found, by rw [Function.update_of_ne apart]; exact knownOther, number, own,
        arrival.trans ?_⟩
      have other_inside : train ≠ other := fun equal => same equal.symm
      simp [inside, other_inside]
  · intro id entry found
    rw [records] at found
    by_cases same : id = train.id
    · exact ⟨train, account.mem_departed gone, same.symm⟩
    · rw [Function.update_of_ne same] at found
      exact account.keys id entry found

end Account

/-- Every instant of every run has its account. -/
theorem run_account (run : Run p count state move) :
    ∀ k ≤ count, ∃ departed entered, Account state k (state k) departed entered := by
  apply run.invariant fun k st => ∃ departed entered, Account state k st departed entered
  · exact ⟨[], [], .initial run.start⟩
  · rintro k - stepped ⟨departed, entered, account⟩
    cases step_traffic stepped with
    | quiet queues records last tunnel named =>
      exact ⟨departed, entered, account.quiet queues records last tunnel named⟩
    | depart train _ fresh away queues records last tunnel named =>
      exact ⟨departed ++ [train], entered,
        account.depart train fresh away queues records last tunnel named⟩
    | enter source train rest front queues records last vacant tunnel named =>
      exact ⟨departed, entered ++ [train],
        account.enter front queues records last vacant tunnel named⟩
    | leave train record now inside known queues records last tunnel named =>
      exact ⟨departed, entered, account.leave inside known now queues records last tunnel named⟩

/-! ### The laws -/

/-- Where a train can be. -/
inductive Place where
  | waiting (source : Station)
  | tunnel
  | past
  deriving DecidableEq, Repr

/-- The train has been in the tunnel, and it is no longer there. -/
def Past (state : ℕ → State) (k : ℕ) (id : Int) : Prop :=
  Seen (State.Holds id) state k ∧ ¬ (state k).Holds id

def Located (state : ℕ → State) (k : ℕ) (id : Int) : Place → Prop
  | .waiting source => ∃ train ∈ (state k).sectionQueue source, train.id = id
  | .tunnel => (state k).Holds id
  | .past => Past state k id

/-- The first text names another train than the second, and an earlier one if
the two have one source. -/
def NamesInOrder (st : State) (text text' : String) : Prop :=
  ∀ id id' record record', st.trainsHashMap id = some record → st.trainsHashMap id' = some record' →
    text = toString id → text' = toString id' →
    id ≠ id' ∧ (record.source = record'.source → id < id')

/-- No train is lost, doubled or reordered up to this instant. -/
structure Conserved (state : ℕ → State) (k : ℕ) : Prop where
  place : ∀ id, 0 ≤ id → id ≤ (state k).trainId → ∃! place, Located state k id place
  own : ∀ id source, Located state k id (.waiting source) →
    ∃ record, (state k).trainsHashMap id = some record ∧ record.source = source
  keys : ∀ id, ((state k).trainsHashMap id).isSome ↔ 0 ≤ id ∧ id ≤ (state k).trainId
  queues : ∀ source,
    ((state k).sectionQueue source).Pairwise fun first second => first.id < second.id
  passed : ∀ entry ∈ (state k).passings,
    ∃ id, ((state k).trainsHashMap id).isSome ∧ entry.trainId = toString id
  passings : ((state k).passings.map Event.trainId).Pairwise (NamesInOrder (state k))
  arrivals : ∀ id record, (state k).trainsHashMap id = some record →
    (record.arrivalTime ≠ -1 ↔ Past state k id)

/-- Different numbers have different texts. -/
theorem idText_inj {m n : Nat} (same : toString (m : Int) = toString (n : Int)) : m = n := by
  have texts : m.repr = n.repr := same
  have digits : Nat.toDigits 10 m = Nat.toDigits 10 n := by
    rw [← Nat.toList_repr, texts, Nat.toList_repr]
  rw [← Nat.ofDigitChars_ten_toDigits (n := m), digits, Nat.ofDigitChars_ten_toDigits]

namespace Account

variable {state : ℕ → State} {departed entered : List Train}

theorem known_iff (account : Account state k st departed entered) {id : Int} :
    (∃ train ∈ departed, train.id = id) ↔ 0 ≤ id ∧ id ≤ st.trainId := by
  rw [account.numbered.mem_iff, ← account.last, Int.lt_add_one_iff]

theorem known_nonneg (account : Account state k st departed entered) (member : train ∈ departed) :
    ∃ n : Nat, train.id = n :=
  Int.eq_ofNat_of_zero_le (account.numbered.mem_iff.mp ⟨train, member, rfl⟩).1

/-- A text that names a known train names no other. -/
theorem eq_of_text (account : Account state k st departed entered) (first : train ∈ departed)
    (second : other ∈ departed) (same : toString train.id = toString other.id) : train = other := by
  obtain ⟨m, left⟩ := account.known_nonneg first
  obtain ⟨n, right⟩ := account.known_nonneg second
  apply account.numbered.eq_of_id first second
  rw [left, right] at same ⊢
  rw [idText_inj same]

/-- The train with this number, and what is recorded of it. -/
theorem record_of {id : Int} (account : Account state k st departed entered)
    (found : st.trainsHashMap id = some record) : ∃ train ∈ departed, train.id = id ∧
      record.source = train.source ∧
      (record.arrivalTime ≠ -1 ↔ train ∈ entered ∧ st.inTunnel ≠ some train) := by
  obtain ⟨train, member, rfl⟩ := account.keys id record found
  obtain ⟨record', known, -, own, arrival⟩ := account.records train member
  cases Option.some.inj (found.symm.trans known)
  exact ⟨train, member, rfl, own, arrival⟩

theorem holds_iff (account : Account state k (state k) departed entered) (member : train ∈ departed) :
    (state k).Holds train.id ↔ (state k).inTunnel = some train := by
  constructor
  · rintro ⟨other, inside, same⟩
    have listed := account.mem_departed (account.tunnel other inside)
    rw [inside, account.numbered.eq_of_id listed member same]
  · exact fun inside => ⟨train, inside, rfl⟩

theorem past_iff (account : Account state k (state k) departed entered) (member : train ∈ departed) :
    Past state k train.id ↔ train ∈ entered ∧ (state k).inTunnel ≠ some train := by
  unfold Past
  rw [account.holds_iff member, account.seen train.id]
  refine and_congr_left fun _ => ⟨?_, fun gone => ⟨train, gone, rfl⟩⟩
  rintro ⟨other, gone, same⟩
  exact account.numbered.eq_of_id (account.mem_departed gone) member same ▸ gone

theorem waiting_iff (account : Account state k (state k) departed entered)
    (member : train ∈ departed) (source : Station) :
    Located state k train.id (.waiting source) ↔ train ∉ entered ∧ train.source = source := by
  constructor
  · rintro ⟨other, waits, same⟩
    have listed := (account.fifo.waiting_sublist source).subset waits
    cases account.numbered.eq_of_id listed member same
    exact ⟨account.fifo.waiting_not_taken account.numbered.distinct waits,
      account.fifo.origin_of_waiting waits⟩
  · rintro ⟨before, rfl⟩
    exact ⟨train, (account.fifo.mem_arrived.mp member).resolve_left before, rfl⟩

/-- A train has one place, by whether it has entered the tunnel and whether it
is there. -/
theorem one_place (account : Account state k (state k) departed entered) (member : train ∈ departed) :
    ∃! place, Located state k train.id place := by
  have waiting := account.waiting_iff member
  have tunnel : Located state k train.id .tunnel ↔ _ := account.holds_iff member
  have past : Located state k train.id .past ↔ _ := account.past_iff member
  by_cases gone : train ∈ entered
  · by_cases inside : (state k).inTunnel = some train
    · refine ⟨.tunnel, tunnel.mpr inside, fun place located => ?_⟩
      cases place with
      | waiting source => exact absurd gone ((waiting source).mp located).1
      | tunnel => rfl
      | past => exact absurd inside (past.mp located).2
    · refine ⟨.past, past.mpr ⟨gone, inside⟩, fun place located => ?_⟩
      cases place with
      | waiting source => exact absurd gone ((waiting source).mp located).1
      | tunnel => exact absurd (tunnel.mp located) inside
      | past => rfl
  · refine ⟨.waiting train.source, (waiting _).mpr ⟨gone, rfl⟩, fun place located => ?_⟩
    cases place with
    | waiting source => rw [((waiting source).mp located).2]
    | tunnel => exact absurd (account.tunnel train (tunnel.mp located)) gone
    | past => exact absurd (past.mp located).1 gone

/-- Of two entries the earlier is of another train, and of one with a smaller
number if they have one source. -/
theorem entered_ordered (account : Account state k st departed entered) :
    entered.Pairwise fun first second =>
      first ≠ second ∧ (first.source = second.source → first.id < second.id) :=
  List.Pairwise.and (account.fifo.taken_nodup account.numbered.distinct)
    (account.fifo.taken_ordered account.numbered.increasing)

/-- The passings name entered trains, in the order of the entries. -/
theorem passings_sublist (account : Account state k st departed entered) :
    (st.passings.map Event.trainId).Sublist (entered.map fun train => toString train.id) := by
  rw [← account.named]
  exact List.sublist_append_left _ _

end Account

theorem run_conserves (run : Run p count state move) (k : ℕ) (inside : k ≤ count) :
    Conserved state k := by
  obtain ⟨departed, entered, account⟩ := run_account run k inside
  refine ⟨?_, ?_, ?_, ?_, ?_, ?_, ?_⟩
  · intro id low high
    obtain ⟨train, member, rfl⟩ := account.known_iff.mpr ⟨low, high⟩
    exact account.one_place member
  · rintro id source ⟨train, waits, rfl⟩
    have member := (account.fifo.waiting_sublist source).subset waits
    obtain ⟨record, known, -, own, -⟩ := account.records train member
    exact ⟨record, known, own.trans (account.fifo.origin_of_waiting waits)⟩
  · intro id
    rw [← account.known_iff, Option.isSome_iff_exists]
    constructor
    · exact fun ⟨record, found⟩ => account.keys id record found
    · rintro ⟨train, member, rfl⟩
      obtain ⟨record, known, -⟩ := account.records train member
      exact ⟨record, known⟩
  · intro source
    exact account.numbered.increasing.sublist (account.fifo.waiting_sublist source)
  · intro entry listed
    have text := account.passings_sublist.subset (List.mem_map_of_mem (f := Event.trainId) listed)
    obtain ⟨train, gone, same⟩ := List.mem_map.mp text
    obtain ⟨record, known, -⟩ := account.records train (account.mem_departed gone)
    exact ⟨train.id, Option.isSome_iff_exists.mpr ⟨record, known⟩, same.symm⟩
  · apply List.Pairwise.sublist account.passings_sublist
    apply List.pairwise_map.mpr
    refine account.entered_ordered.imp_of_mem fun {first second} gone gone' ordered => ?_
    intro id id' record record' found found' text text'
    obtain ⟨train, member, rfl, own, -⟩ := account.record_of found
    obtain ⟨train', member', rfl, own', -⟩ := account.record_of found'
    cases account.eq_of_text (account.mem_departed gone) member text
    cases account.eq_of_text (account.mem_departed gone') member' text'
    rw [own, own']
    exact ⟨fun same => ordered.1 (account.numbered.eq_of_id member member' same), ordered.2⟩
  · intro id record found
    obtain ⟨train, member, rfl, -, arrival⟩ := account.record_of found
    rw [arrival, account.past_iff member]

/-- A train departs from A and passes the tunnel. -/
def oneTrip : List Move :=
  List.replicate 4 (turn (.sectionFunction .A)) ++ List.replicate 10 (turn .controlCenter)

theorem run_conserves_one_trip : (during oneTrip 14).passings.length = 1 ∧
    Conserved (during oneTrip) 14 := by
  have checked : checkMoves (step half) (fun _ _ => true) .initial oneTrip = true := by decide +kernel
  exact ⟨by decide +kernel, run_conserves (trace_of_check checked) 14 (by decide)⟩

end Comp304.Metro
