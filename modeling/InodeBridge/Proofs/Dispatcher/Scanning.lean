import InodeBridge.Proofs.Dispatcher.Records
import InodeBridge.Proofs.Dispatcher.Runs
import InodeBridge.Proofs.Host.Answers

/-! # Scanning a directory that changes

A scan lists a directory call by call, each from the last offset on, until nothing comes back; between
two calls any requests may be served.  A name has a position, the number of lines before it, that moves
as names before it come and go.  Where it slips from one side of the resume point to the other, the name
is missed or comes twice, and nowhere else.
-/
namespace InodeBridge

open Storage (Call Event)

namespace HostStorage

/-- Describing leaves the host as it is. -/
theorem state_of_stat (root path : Path) (s : HostStorage) :
    ((serving root).perform (.stat path) s).2 = s := by
  simp only [serving]
  split <;> rfl

/-- Listing leaves the host as it is and gives each name once, in the order of the bytes. -/
theorem names_of_readdir {root path : Path} {s s' : HostStorage} {names : List Name}
    (h : (serving root).perform (.readdir path) s = (.ok names, s')) :
    s' = s ∧ names.Nodup ∧ names.Pairwise fun a b => Bytes.lexLE a b = true := by
  simp only [serving] at h
  split at h
  · obtain ⟨rfl, id, entries, _, rfl⟩ := readdir_eq_ok h
    refine ⟨rfl, (List.mergeSort_perm _ _).nodup_iff.2 entries.keys_nodup, ?_⟩
    have htrans : ∀ a b c, Bytes.lexLE a b = true → Bytes.lexLE b c = true →
        Bytes.lexLE a c = true := fun _ _ _ => Bytes.lexLE_trans
    exact List.pairwise_mergeSort htrans Bytes.lexLE_total _
  · simp at h

end HostStorage

namespace Dispatcher

/-- The position of a name among the lines of a directory: those before it are the two references and
the names that come before it in the order of the bytes. -/
def positionIn (names : List Name) (x : Name) : Nat :=
  2 + (names.filter fun name => Bytes.lexLE name x && name != x).length

theorem mem_lines_positionIn {names : List Name} {x : Name} (hx : x ∈ names)
    (hnodup : names.Nodup) (hsorted : names.Pairwise fun a b => Bytes.lexLE a b = true) :
    (x, positionIn names x) ∈ lines names := by
  obtain ⟨before, after, rfl⟩ := List.append_of_mem hx
  obtain ⟨_, hsortedAfter, hordered⟩ := List.pairwise_append.1 hsorted
  obtain ⟨_, hnodupAfter, hapart⟩ := List.nodup_append.1 hnodup
  have hbefore : before.filter (fun name => Bytes.lexLE name x && name != x) = before := by
    rw [List.filter_eq_self]
    intro name hname
    simp [hordered name hname x (by simp), hapart name hname x (by simp)]
  have hafter : after.filter (fun name => Bytes.lexLE name x && name != x) = [] := by
    rw [List.filter_eq_nil_iff]
    intro name hname hle
    simp only [Bool.and_eq_true, bne_iff_ne] at hle
    exact hle.2 (Bytes.lexLE_antisymm hle.1 ((List.pairwise_cons.1 hsortedAfter).1 name hname))
  rw [lines, List.mem_zipIdx_iff_getElem?, positionIn]
  simp [List.filter_append, hbefore, hafter, Nat.add_comm]

/-- A call for a listing: the states in which it was made, its operands and what it gave. -/
structure Round where
  dispatcher : Dispatcher
  storage : HostStorage
  offset : Int64
  budget : Nat
  buffer : DirectoryBuffer

section Scan

variable (root : Path) (inode : Inode) (handle : Handle)

namespace Round

variable (r : Round)

def served : Service × HostStorage :=
  serveOver (HostStorage.serving root) r.dispatcher r.storage
    (.readdir inode handle r.offset r.budget)

def path : Path := (r.dispatcher.inodes.resolve? inode).getD default

def names : List Name :=
  ((HostStorage.serving root).perform (.readdir (r.path inode)) r.storage).1.toOption.getD []

def describes (x : Name) : Bool :=
  ((HostStorage.serving root).perform (.stat ((r.path inode).child x)) r.storage).1.toBool

def start : Nat := r.offset.toNatClampNeg

def next : Nat := (r.buffer.entries.getLast?.map (·.offset)).getD r.offset |>.toNatClampNeg

def position (x : Name) : Nat := positionIn (r.names root inode) x

def times (x : Name) : Nat := (r.buffer.entries.map (·.name)).count x

end Round

/-- The calls of a scan from an offset on, with any requests served before each of them. -/
inductive Scan : Dispatcher → HostStorage → Int64 → List Round → Prop
  /-- Nothing came back. -/
  | last {d : Dispatcher} {s : HostStorage} {offset : Int64} (between : List Request) (r : Round)
    (reached : stateAfter (HostStorage.serving root) d s between = (r.dispatcher, r.storage))
    (starts : r.offset = offset)
    (answered : (r.served root inode handle).1.outcome = some (.directory r.buffer))
    (ended : r.buffer.entries = []) : Scan d s offset [r]
  /-- Some records came back, and the scan goes on from the last one. -/
  | more {d : Dispatcher} {s : HostStorage} {offset : Int64} (between : List Request) (r : Round)
    {e : DirectoryEntry} {rounds : List Round}
    (reached : stateAfter (HostStorage.serving root) d s between = (r.dispatcher, r.storage))
    (starts : r.offset = offset)
    (answered : (r.served root inode handle).1.outcome = some (.directory r.buffer))
    (resumes : r.buffer.entries.getLast? = some e)
    (later : Scan (r.served root inode handle).1.after (r.served root inode handle).2 e.offset
      rounds) : Scan d s offset (r :: rounds)

def Round.made (d : Dispatcher) (s : HostStorage) (between : List Request) (offset : Int64)
    (budget : Nat) : Round :=
  let reached := stateAfter (HostStorage.serving root) d s between
  let service := serveOver (HostStorage.serving root) reached.1 reached.2
    (.readdir inode handle offset budget)
  let buffer := match service.1.outcome with
    | some (.directory buffer) => buffer
    | _ => .new budget
  ⟨reached.1, reached.2, offset, budget, buffer⟩

/-- The calls of a scan as they come out, for the requests before each call and its budget. -/
def scanWith : Dispatcher → HostStorage → Int64 → List (List Request × Nat) → List Round
  | _, _, _, [] => []
  | d, s, offset, (between, budget) :: plan =>
    let r := Round.made root inode handle d s between offset budget
    let served := r.served root inode handle
    r :: scanWith served.1.after served.2 ((r.buffer.entries.getLast?.map (·.offset)).getD offset)
      plan

/-- Whether all calls were answered with a listing and only the last one with nothing. -/
def completes : List Round → Bool
  | [] => false
  | r :: rounds =>
    (r.served root inode handle).1.outcome = some (.directory r.buffer) &&
      if r.buffer.entries.isEmpty then rounds.isEmpty else completes rounds

variable {root inode handle} in
theorem scan_scanWith {d : Dispatcher} {s : HostStorage} {offset : Int64}
    {plan : List (List Request × Nat)}
    (h : completes root inode handle (scanWith root inode handle d s offset plan) = true) :
    Scan root inode handle d s offset (scanWith root inode handle d s offset plan) := by
  induction plan generalizing d s offset with
  | nil => simp [scanWith, completes] at h
  | cons step plan ih =>
    obtain ⟨between, budget⟩ := step
    rw [scanWith] at h ⊢
    simp only [completes, Bool.and_eq_true, decide_eq_true_eq] at h
    obtain ⟨hanswered, hlater⟩ := h
    cases hlast : (Round.made root inode handle d s between offset budget).buffer.entries.getLast? with
    | none =>
      have hempty := List.getLast?_eq_none_iff.1 hlast
      rw [hlast, hempty, List.isEmpty_nil, if_pos rfl, List.isEmpty_iff] at hlater
      rw [hlater]
      exact .last between _ rfl rfl hanswered hempty
    | some e =>
      have hmore : (Round.made root inode handle d s between offset budget).buffer.entries.isEmpty =
          false := by
        rw [Bool.eq_false_iff]
        intro hempty
        simp [List.isEmpty_iff.1 hempty] at hlast
      rw [hmore, hlast] at hlater
      exact .more between _ rfl rfl hanswered hlast (ih hlater)

/-- Where a call starts, where the next one starts and where a name is. -/
structure Mark where
  start : Nat
  next : Nat
  position : Nat

def Round.mark (x : Name) (r : Round) : Mark := ⟨r.start, r.next, r.position root inode x⟩

def countBetween (p : Mark → Mark → Bool) : List Mark → Nat
  | m :: m' :: marks => (if p m m' then 1 else 0) + countBetween p (m' :: marks)
  | _ => 0

/-- How often a name that had not come back slipped before the point from which the scan went on. -/
def missed (x : Name) (rounds : List Round) : Nat :=
  countBetween (fun m m' => m.next ≤ m.position && m'.position < m'.start)
    (rounds.map (Round.mark root inode x))

/-- How often a name that had come back slipped behind the point from which the scan went on. -/
def repeated (x : Name) (rounds : List Round) : Nat :=
  countBetween (fun m m' => m.position < m.next && m'.start ≤ m'.position)
    (rounds.map (Round.mark root inode x))

variable {root : Path} {inode : Inode} {handle : Handle} {r : Round}

/-- A call that gave a listing shows the lines that the directory had then, from its offset on. -/
theorem Round.shows (h : (r.served root inode handle).1.outcome = some (.directory r.buffer)) :
    (r.names root inode).Nodup ∧
      (r.names root inode).Pairwise (fun a b => Bytes.lexLE a b = true) ∧
      Shows (r.describes root inode) r.budget ((lines (r.names root inode)).drop r.start)
        (.new r.budget) r.buffer := by
  have hanswers := serveOver_answers (HostStorage.serving root) r.dispatcher r.storage
    (.readdir inode handle r.offset r.budget)
  obtain ⟨result, hdoes, hresult⟩ := does_answer.1 <|
    serveOver_possible (HostStorage.serving root) r.dispatcher r.storage
      (.readdir inode handle r.offset r.budget)
  rw [Round.served] at h
  rw [h] at hresult
  obtain ⟨e, _, _, rfl, _⟩ | ⟨start, path, hstart, hpath, ⟨e, _, rfl, _⟩ | ⟨names, rest, bound, buffer,
    hevents, hlisting, rfl, _⟩⟩ := does_readdir hdoes
  · simp [answerOf] at hresult
  · simp [answerOf] at hresult
  obtain rfl : r.buffer = buffer := by simpa [answerOf] using hresult
  rw [hevents] at hanswers
  obtain ⟨mid, hreaddir, hstats⟩ := hanswers
  obtain ⟨rfl, hnodup, hsorted⟩ := HostStorage.names_of_readdir hreaddir
  change r.dispatcher.inodes.resolve? inode = some path at hpath
  have hpath' : r.path inode = path := by rw [Round.path, hpath]; rfl
  have hnames : r.names root inode = names := by
    rw [Round.names, hpath', show ((HostStorage.serving root).perform (.readdir path)
      r.storage).1 = .ok names from congrArg Prod.fst hreaddir]
    rfl
  obtain ⟨_, hdescribed⟩ := hstats.of_keeping fun event hevent => by
    obtain ⟨name, _, hp⟩ := hlisting.stats event hevent
    rw [hp]
    exact HostStorage.state_of_stat root (path.child name) r.storage
  rw [hnames]
  refine ⟨hnodup, hsorted, ?_⟩
  rw [Round.start, ← positionOf_eq_ok hstart]
  apply hlisting.shows
  intro name _ result hevent
  rw [Round.describes, hpath']
  exact congrArg Except.toBool (hdescribed _ hevent)

section Accounting

variable {x : Name}

/-- The name exists when the call is made, and its entry can be described. -/
def Round.Has (root : Path) (inode : Inode) (r : Round) (x : Name) : Prop :=
  x ∈ r.names root inode ∧ r.describes root inode x = true

/-- The budget suffices for the record of each line, and there are no more lines than offsets. -/
def Round.Suffices (root : Path) (inode : Inode) (r : Round) : Prop :=
  (∀ line ∈ lines (r.names root inode), recordSize line.1 ≤ r.budget) ∧
    (r.names root inode).length + 2 < 2 ^ 63

theorem Round.position_lt_start
    (h : (r.served root inode handle).1.outcome = some (.directory r.buffer))
    (hempty : r.buffer.entries = []) (hhas : r.Has root inode x)
    (hsuffices : r.Suffices root inode) : r.position root inode x < r.start := by
  obtain ⟨hnodup, hsorted, hshows⟩ := Round.shows h
  apply hshows.ended hempty hsuffices.1 (mem_lines_positionIn hhas.1 hnodup hsorted)
  simp [isShown, hhas.2]

/-- A call that gave records returned the name once if its position is from the start of the call up
to where the next one starts, and otherwise not. -/
theorem Round.times_eq
    (h : (r.served root inode handle).1.outcome = some (.directory r.buffer)) {e : DirectoryEntry}
    (hlast : r.buffer.entries.getLast? = some e) (hx : x.isEntry = true)
    (hhas : r.Has root inode x) (hsuffices : r.Suffices root inode) :
    r.start ≤ r.next ∧ r.times x =
      if r.start ≤ r.position root inode x ∧ r.position root inode x < r.next then 1 else 0 := by
  obtain ⟨hnodup, hsorted, hshows⟩ := Round.shows h
  obtain ⟨q, he, hstart, hq, hcount⟩ := hshows.upTo hlast
  have hnext : r.next = q + 1 := by
    rw [Round.next, hlast]
    have hmin : min (q + 1) (2 ^ 63 - 1) = q + 1 := by have := hsuffices.2; omega
    simp only [Option.map_some, Option.getD_some, he, offsetAfter, hmin]
    exact Int64.toNatClampNeg_ofNat_of_lt (by have := hsuffices.2; omega)
  refine ⟨by omega, ?_⟩
  rw [hnext, Round.times,
    hcount hnodup hx (mem_lines_positionIn hhas.1 hnodup hsorted) hhas.2]
  simp only [Nat.lt_succ_iff]
  rfl

/-- The first call of a scan is at its offset. -/
theorem Scan.head {d : Dispatcher} {s : HostStorage} {offset : Int64} {rounds : List Round}
    (h : Scan root inode handle d s offset rounds) :
    ∃ first later, rounds = first :: later ∧ first.offset = offset := by
  cases h with
  | last between r reached starts => exact ⟨r, [], rfl, starts⟩
  | more between r reached starts => exact ⟨r, _, rfl, starts⟩

theorem Scan.no_slips {d : Dispatcher} {s : HostStorage} {offset : Int64} {rounds : List Round}
    (h : Scan root inode handle d s offset rounds) {position : Nat}
    (hsame : ∀ r ∈ rounds, r.position root inode x = position) :
    missed root inode x rounds = 0 ∧ repeated root inode x rounds = 0 := by
  induction h with
  | last => exact ⟨rfl, rfl⟩
  | more between r reached starts answered resumes later ih =>
    obtain ⟨hmissed, hrepeated⟩ := ih fun r' hr' => hsame r' (List.mem_cons_of_mem _ hr')
    obtain ⟨next, rest, rfl, hoffset⟩ := later.head
    have hresumes : next.start = r.next := by
      rw [Round.start, hoffset, Round.next, resumes]
      rfl
    have hposition := hsame r (by simp)
    have hposition' := hsame next (by simp)
    simp only [missed, repeated, List.map_cons, countBetween] at hmissed hrepeated ⊢
    rw [hmissed, hrepeated]
    simp [Round.mark, hresumes, hposition, hposition']

/-- What a call at one position and the next call at another do to the balance. -/
theorem slip_balance {start next position start' position' times missed repeated : Nat}
    (hle : start ≤ next)
    (ih : times + missed + (if position' < start' then 1 else 0) = 1 + repeated) :
    (if start ≤ position ∧ position < next then 1 else 0) + times +
        ((if next ≤ position ∧ position' < start' then 1 else 0) + missed) +
        (if position < start then 1 else 0) =
      1 + ((if position < next ∧ start' ≤ position' then 1 else 0) + repeated) := by
  grind

/-- Over a scan, a name that exists at every call comes back once, plus the times it slipped behind
the resume point, less the times it slipped before it. -/
theorem Scan.accounts {d : Dispatcher} {s : HostStorage} {offset : Int64} {rounds : List Round}
    (h : Scan root inode handle d s offset rounds) (hx : x.isEntry = true)
    (hhas : ∀ r ∈ rounds, r.Has root inode x)
    (hsuffices : ∀ r ∈ rounds, r.Suffices root inode) :
    ∀ first later, rounds = first :: later →
      (rounds.map (·.times x)).sum + missed root inode x rounds +
          (if first.position root inode x < first.start then 1 else 0) =
        1 + repeated root inode x rounds := by
  induction h with
  | last between r reached starts answered ended =>
    have hbehind := Round.position_lt_start answered ended (hhas r (by simp)) (hsuffices r (by simp))
    rintro first later heq
    obtain ⟨rfl, -⟩ := List.cons.inj heq
    simp [Round.times, ended, hbehind, missed, repeated, countBetween]
  | more between r reached starts answered resumes later ih =>
    obtain ⟨next, rest, rfl, _⟩ := later.head
    replace ih := ih (fun r' hr' => hhas r' (List.mem_cons_of_mem _ hr'))
      (fun r' hr' => hsuffices r' (List.mem_cons_of_mem _ hr')) next rest rfl
    obtain ⟨hle, htimes⟩ := Round.times_eq answered resumes hx (hhas r (by simp))
      (hsuffices r (by simp))
    rintro first later heq
    obtain ⟨rfl, -⟩ := List.cons.inj heq
    simp only [missed, repeated, countBetween, List.map_cons, List.sum_cons, htimes, Round.mark,
      Bool.and_eq_true, decide_eq_true_eq] at ih ⊢
    exact slip_balance hle ih

/-- A scan of a directory, with any requests between its calls: a name that exists at every call comes
back once, plus the times it slipped behind the point from which the scan went on, less the times it
slipped before it.  So it comes back exactly once if and only if these are as many, and in particular
if as many names come before it at each call. -/
theorem scan_returns_once_iff (root : Path) (inode : Inode) (handle : Handle) (d : Dispatcher)
    (s : HostStorage) (rounds : List Round) (x : Name)
    (hscan : Scan root inode handle d s 0 rounds) (hx : x.isEntry = true)
    (hhas : ∀ r ∈ rounds, r.Has root inode x)
    (hsuffices : ∀ r ∈ rounds, r.Suffices root inode) :
    (rounds.map (·.times x)).sum + missed root inode x rounds =
        1 + repeated root inode x rounds ∧
      ((rounds.map (·.times x)).sum = 1 ↔
        missed root inode x rounds = repeated root inode x rounds) ∧
      ((∀ r ∈ rounds, ∀ r' ∈ rounds, r.position root inode x = r'.position root inode x) →
        (rounds.map (·.times x)).sum = 1) := by
  obtain ⟨first, later, rfl, hoffset⟩ := hscan.head
  have hstart : first.start = 0 := by rw [Round.start, hoffset]; rfl
  have haccounts := hscan.accounts hx hhas hsuffices first later rfl
  rw [hstart, if_neg (Nat.not_lt_zero _), Nat.add_zero] at haccounts
  refine ⟨haccounts, by omega, fun hsame => ?_⟩
  obtain ⟨hmissed, hrepeated⟩ := hscan.no_slips fun r hr => hsame r hr first (by simp)
  omega

/-- Of three files in a directory the first is returned and removed; the second is then missed, for
the scan goes on behind it. -/
theorem removed_entry_hides_next :
    let root : Path := ⟨[slash]⟩
    let d := start (fun _ salt => salt + 2) {} root
    let s := HostStorage.new (Host.fresh 0 .epoch .fallback)
    let create (name : UInt8) : Request := .create rootInode [name] 0o644 0
    let rounds := scanWith root rootInode 0 d s 0
      [([create 0x61, create 0x62, create 0x63], 96), ([.unlink rootInode [0x61]], 96), ([], 96)]
    Scan root rootInode 0 d s 0 rounds ∧ (∀ r ∈ rounds, r.Has root rootInode [0x62]) ∧
      (∀ r ∈ rounds, r.Suffices root rootInode) ∧
      missed root rootInode [0x62] rounds = 1 ∧ repeated root rootInode [0x62] rounds = 0 ∧
      (rounds.map (·.times [0x62])).sum = 0 := by
  intro root d s create rounds
  have hscan : Scan root rootInode 0 d s 0 rounds := scan_scanWith (by cbv)
  have hmarks : rounds.map (Round.mark root rootInode [0x62]) = [⟨0, 3, 3⟩, ⟨3, 4, 2⟩, ⟨4, 4, 2⟩] := by
    cbv
  have hnames : rounds.map (Round.names root rootInode) =
      [[[0x61], [0x62], [0x63]], [[0x62], [0x63]], [[0x62], [0x63]]] := by
    cbv
  have hdescribed : rounds.map (Round.describes root rootInode · [0x62]) = [true, true, true] := by
    cbv
  have hbudgets : rounds.map (·.budget) = [96, 96, 96] := by
    cbv
  have hhas : ∀ r ∈ rounds, r.Has root rootInode [0x62] := fun r hr =>
    ⟨List.forall_mem_map.1 (hnames ▸ by decide : ∀ names ∈ rounds.map (Round.names root rootInode),
        [0x62] ∈ names) r hr,
      List.forall_mem_map.1 (hdescribed ▸ by decide :
        ∀ shown ∈ rounds.map (Round.describes root rootInode · [0x62]), shown = true) r hr⟩
  have hsuffices : ∀ r ∈ rounds, r.Suffices root rootInode := by
    intro r hr
    have hbudget : r.budget = 96 := List.forall_mem_map.1 (hbudgets ▸ by decide :
      ∀ budget ∈ rounds.map (·.budget), budget = 96) r hr
    have hfits := List.forall_mem_map.1 (hnames ▸ by decide :
      ∀ names ∈ rounds.map (Round.names root rootInode),
        (∀ line ∈ lines names, recordSize line.1 ≤ 96) ∧ names.length + 2 < 2 ^ 63) r hr
    rwa [Round.Suffices, hbudget]
  have hmissed : missed root rootInode [0x62] rounds = 1 := by
    rw [missed, hmarks]
    rfl
  have hrepeated : repeated root rootInode [0x62] rounds = 0 := by
    rw [repeated, hmarks]
    rfl
  have h := (scan_returns_once_iff root rootInode 0 d s rounds [0x62] hscan (by decide) hhas
    hsuffices).1
  exact ⟨hscan, hhas, hsuffices, hmissed, hrepeated, by omega⟩

end Accounting

end Scan

end Dispatcher
end InodeBridge
