import Comp304.Metro.Conservation

/-! The two logs written when `main` stops the threads: `train.log` from the
records of the trains, `control-center.log` from the queue of events. A train
is on record as arrived when it leaves the tunnel, and its passing is logged
when it enters; so the logs disagree about the train that is inside when the
threads are stopped. -/
namespace Comp304.Metro
open Library.Lanes Library.Traces

/-! ### The text of the logs -/

/-- `setw(width)` with a fill character, the text at the right end. -/
def padLeft (width : Nat) (fill : Char) (text : String) : String :=
  String.ofList (List.replicate (width - text.length) fill) ++ text

/-- What is used of the result of `localtime`, which depends on the time zone. -/
structure ClockTime where
  hour : Nat
  minute : Nat
  second : Nat

def clockText (time : ClockTime) : String :=
  padLeft 2 '0' (toString time.hour) ++ ":" ++ padLeft 2 '0' (toString time.minute) ++ ":" ++
    padLeft 2 '0' (toString time.second)

def Station.text : Station → String
  | A => "A"
  | B => "B"
  | E => "E"
  | F => "F"

/-- The columns of a line of `train.log`, before they are padded. -/
structure TrainRow where
  trainId : String
  startingPoint : String
  destinationPoint : String
  length : String
  departureTime : String
  arrivalTime : String
  deriving DecidableEq, Repr

def trainRow (localtime : Int → ClockTime) (train : Train) : TrainRow where
  trainId := toString train.id
  startingPoint := train.source.text
  destinationPoint := train.destination.text
  length := toString train.length
  departureTime := clockText (localtime train.departureTime)
  arrivalTime := if train.arrivalTime ≠ -1 then clockText (localtime train.arrivalTime) else "#"

/-- The lines `trainLog` writes about the trains, one for each number. For an id
that is not in the map `operator[]` would insert an empty train, and its line is
`none` here. -/
def trainLog (localtime : Int → ClockTime) (st : State) : List (Option TrainRow) :=
  (List.range (st.trainId + 1).toNat).map fun i : Nat =>
    (st.trainsHashMap i).map (trainRow localtime)

/-- The columns of a line of `control-center.log`, before they are padded. -/
structure ControlRow where
  event : String
  eventTime : String
  trainId : String
  trainsWaitingPassage : String
  deriving DecidableEq, Repr

def controlRow (localtime : Int → ClockTime) (entry : Event) : ControlRow where
  event := entry.event
  eventTime := clockText (localtime entry.eventTime)
  trainId := entry.trainId
  trainsWaitingPassage := entry.trainsWaitingPassage

/-- The lines `controlLog` writes, one for each event in the queue. -/
def controlLog (localtime : Int → ClockTime) (st : State) : List ControlRow :=
  st.controlLogQueue.map (controlRow localtime)

/-- The trains with `#` for an arrival in `train.log` are those without a passing
in `control-center.log`. -/
def LogsAgree (localtime : Int → ClockTime) (st : State) : Prop :=
  ∀ line ∈ trainLog localtime st, ∃ row, line = some row ∧ (row.arrivalTime = "#" ↔
    ¬ ∃ entry ∈ controlLog localtime st, entry.event = "Tunnel Passing" ∧ entry.trainId = row.trainId)

/-- The control center has logged a passing and not recorded the arrival yet. -/
def ControlPoint.OnTheWay : ControlPoint → Prop
  | copying .breakdown _ _ _ _ | travel _ | arrive _ => True
  | _ => False

/-! ### The columns that matter -/

theorem clockText_ne_hash (time : ClockTime) : clockText time ≠ "#" := by
  intro same
  have long := congrArg String.length same
  simp only [clockText, String.length_append, show ":".length = 1 from rfl,
    show "#".length = 1 from rfl] at long
  omega

theorem trainRow_arrival (localtime : Int → ClockTime) (train : Train) :
    (trainRow localtime train).arrivalTime = "#" ↔ train.arrivalTime = -1 := by
  unfold trainRow
  dsimp only
  split_ifs with arrived
  · exact iff_of_false (clockText_ne_hash _) arrived
  · exact iff_of_true rfl (not_not.mp arrived)

/-- A passing in the log file is a passing in the queue. -/
theorem controlLog_passing {name : String} : (∃ entry ∈ controlLog localtime st,
      entry.event = "Tunnel Passing" ∧ entry.trainId = name) ↔
    name ∈ st.passings.map Event.trainId := by
  simp only [controlLog, State.passings, List.mem_map, List.mem_filter, decide_eq_true_eq]
  constructor
  · rintro ⟨_, ⟨entry, logged, rfl⟩, passing, named⟩
    exact ⟨entry, ⟨logged, passing⟩, named⟩
  · rintro ⟨entry, ⟨logged, passing⟩, named⟩
    exact ⟨_, ⟨entry, logged, rfl⟩, passing, named⟩

/-- The control center is outside of the tunnel, or has a train in it whose
passing it has still to log, or one whose passing it has logged. -/
inductive ControlPoint.Stage (point : ControlPoint) : Prop where
  | vacant (train : point.train = none) (unannounced : point.unannounced = [])
      (stage : ¬ point.OnTheWay)
  | entering (inside : Train) (train : point.train = some inside)
      (unannounced : point.unannounced = [inside]) (stage : ¬ point.OnTheWay)
  | onTheWay (inside : Train) (train : point.train = some inside) (unannounced : point.unannounced = [])
      (stage : point.OnTheWay)

theorem ControlPoint.stage (point : ControlPoint) : point.Stage := by
  cases point with
  | emptyCheck | clearedTest | logCleared | reset | select => exact .vacant rfl rfl id
  | passing train => exact .entering train rfl rfl id
  | copying notice train time pq left =>
    cases notice with
    | tunnelPassing => exact .entering train rfl rfl id
    | breakdown => exact .onTheWay train rfl rfl trivial
  | travel train | arrive train => exact .onTheWay train rfl rfl trivial

namespace Account

variable {state : ℕ → State} {st : State} {departed entered : List Train}

theorem text_mem {among : List Train} (account : Account state k st departed entered)
    (member : train ∈ departed) (within : ∀ other ∈ among, other ∈ departed) :
    toString train.id ∈ among.map (fun other => toString other.id) ↔ train ∈ among := by
  constructor
  · intro named
    obtain ⟨other, listed, same⟩ := List.mem_map.mp named
    cases account.eq_of_text (within other listed) member same
    exact listed
  · exact fun listed => List.mem_map.mpr ⟨train, listed, rfl⟩

/-- The passings are those of the trains that have entered the tunnel, less the
one that has still to be announced. -/
theorem passed_iff (account : Account state k st departed entered) (member : train ∈ departed) :
    toString train.id ∈ st.passings.map Event.trainId ↔
      train ∈ entered ∧ train ∉ st.controlAt.unannounced := by
  have named := account.named
  have within : ∀ other ∈ entered, other ∈ departed := fun _ => account.mem_departed
  unfold State.named at named
  cases st.controlAt.stage with
  | vacant _ unannounced | onTheWay _ _ unannounced =>
    rw [unannounced, List.map_nil, List.append_nil] at named
    rw [named, account.text_mem member within, unannounced]
    simp
  | entering inside tunnel unannounced =>
    rw [unannounced, List.map_singleton] at named
    -- the last entry is the train that is still unannounced
    obtain ⟨announced, last, rfl, before, text⟩ := List.map_eq_append_iff.mp named.symm
    obtain ⟨final, rfl, same⟩ := List.map_eq_singleton_iff.mp text
    have gone := account.tunnel inside tunnel
    cases account.eq_of_text (within final (by simp)) (within inside gone) same
    have once := account.fifo.taken_nodup account.numbered.distinct
    have apart : inside ∉ announced := fun listed =>
      List.disjoint_of_nodup_append once listed (List.mem_singleton.mpr rfl)
    rw [← before, account.text_mem member fun other listed => within other (by simp [listed]),
      unannounced]
    constructor
    · intro listed
      refine ⟨by simp [listed], fun only => ?_⟩
      rw [List.mem_singleton.mp only] at listed
      exact apart listed
    · rintro ⟨listed, other⟩
      exact (List.mem_append.mp listed).resolve_right other

end Account

/-- Whenever the threads are stopped, the logs agree unless the control center is
between the two records it makes of a train's passage. -/
theorem logs_agree_iff (run : Run p count state move) (k : ℕ) (inside : k ≤ count)
    (localtime : Int → ClockTime) :
    LogsAgree localtime (state k) ↔ ¬ (state k).controlAt.OnTheWay := by
  obtain ⟨departed, entered, account⟩ := run_account run k inside
  -- the line of a train, and when it is right
  have line : ∀ train ∈ departed, ∃ record, (state k).trainsHashMap train.id = some record ∧
      (((trainRow localtime record).arrivalTime = "#" ↔ ¬ ∃ entry ∈ controlLog localtime (state k),
        entry.event = "Tunnel Passing" ∧ entry.trainId = (trainRow localtime record).trainId) ↔
        (train ∈ entered ∧ (state k).inTunnel ≠ some train ↔
          train ∈ entered ∧ train ∉ (state k).controlAt.unannounced)) := by
    intro train member
    obtain ⟨record, known, number, -, arrival⟩ := account.records train member
    refine ⟨record, known, ?_⟩
    have named : (trainRow localtime record).trainId = toString train.id := by
      rw [← number]
      rfl
    rw [trainRow_arrival, controlLog_passing, named, account.passed_iff member, ← arrival]
    tauto
  constructor
  · intro agree onTheWay
    cases (state k).controlAt.stage with
    | vacant _ _ stage | entering _ _ _ stage => exact stage onTheWay
    | onTheWay train tunnel unannounced =>
      have gone := account.tunnel train tunnel
      have member := account.mem_departed gone
      obtain ⟨low, high⟩ := account.known_iff.mp ⟨train, member, rfl⟩
      obtain ⟨n, number⟩ := account.known_nonneg member
      obtain ⟨record, known, right⟩ := line train member
      have listed : some (trainRow localtime record) ∈ trainLog localtime (state k) := by
        refine List.mem_map.mpr ⟨n, List.mem_range.mpr (by omega), ?_⟩
        rw [← number, known]
        rfl
      obtain ⟨row, same, shown⟩ := agree _ listed
      cases same
      have both := right.mp shown
      rw [unannounced] at both
      exact (both.mpr ⟨gone, List.not_mem_nil⟩).2 tunnel
  · intro elsewhere written listed
    obtain ⟨i, inRange, rfl⟩ := List.mem_map.mp listed
    have bound := List.mem_range.mp inRange
    obtain ⟨train, member, number⟩ := account.known_iff.mpr ⟨Int.natCast_nonneg i, by omega⟩
    obtain ⟨record, known, right⟩ := line train member
    refine ⟨trainRow localtime record, by rw [← number, known]; rfl, right.mpr ?_⟩
    cases (state k).controlAt.stage with
    | onTheWay _ _ _ stage => exact absurd stage elsewhere
    | vacant tunnel unannounced =>
      have empty : (state k).inTunnel = none := tunnel
      simp [empty, unannounced]
    | entering inside tunnel unannounced =>
      have one : (state k).inTunnel = some inside := tunnel
      rw [one, unannounced, List.mem_singleton, Option.some_inj.ne]
      exact and_congr_right fun _ => ne_comm

/-- `localtime` in the time zone UTC. -/
def utc (time : Int) : ClockTime :=
  ⟨(time / 3600 % 24).toNat, (time / 60 % 60).toNat, (time % 60).toNat⟩

/-- The train of the trip has left the tunnel, and nothing is under way. -/
theorem logs_agree_iff_one_trip : (during oneTrip 14).passings.length = 1 ∧
    LogsAgree utc (during oneTrip 14) := by
  have checked : checkMoves (step half) (fun _ _ => true) .initial oneTrip = true := by decide +kernel
  have vacant : (during oneTrip 14).controlAt = .emptyCheck := by decide +kernel
  refine ⟨by decide +kernel, (logs_agree_iff (trace_of_check checked) 14 (by decide) utc).mpr ?_⟩
  rw [vacant]
  exact id

/-- The threads are stopped while the control center sleeps with the first train
in the tunnel. -/
theorem logs_differ : ¬ ∀ p count state move k localtime, Run p count state move → k ≤ count →
    LogsAgree localtime (state k) := by
  intro always
  have checked : checkMoves (step half) (fun _ _ => true) .initial oneTrip = true := by decide +kernel
  have agree := always _ _ _ _ 12 utc (trace_of_check checked) (by decide)
  have line : some ⟨"0", "A", "E", "100", "00:01:40", "#"⟩ ∈ trainLog utc (during oneTrip 12) := by
    decide +kernel
  obtain ⟨row, same, shown⟩ := agree _ line
  cases same
  have passing : "0" ∈ (during oneTrip 12).passings.map Event.trainId := by decide +kernel
  exact shown.mp rfl (controlLog_passing.mpr passing)

end Comp304.Metro
