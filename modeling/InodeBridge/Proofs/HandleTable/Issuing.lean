import InodeBridge.Proofs.HandleTable
import Mathlib.Algebra.Order.Group.Multiset
import Mathlib.Data.List.Induction

/-! # Numbers are handed out once

A value is put in by counting on, round by round, until a number is neither zero nor held; while any
number is free that ends, wherever the count stands and though it wraps around.  From an empty table on,
the numbers handed out are one, two, three and so on until they run out.  So what is found under a number
is the value that was put in for it, until that is taken out, and no value is taken out twice.
-/
namespace InodeBridge.HandleTable

variable {ν : Type} {t t' : HandleTable ν} {value : ν} {id : UInt64}

/-- Putting a value in, round by round: each takes the next number off the count, and the first one that
is not zero and not held gets the value. -/
inductive Puts (value : ν) : HandleTable ν → UInt64 → HandleTable ν → Prop
  | given {t : HandleTable ν} (nonzero : t.next ≠ 0) (unheld : t.get? t.next = none) :
    Puts value t t.next ⟨t.held.insert t.next value, t.next + 1⟩
  | passed {t t' : HandleTable ν} {id : UInt64} (taken : t.next = 0 ∨ t.get? t.next ≠ none)
    (later : Puts value { t with next := t.next + 1 } id t') : Puts value t id t'

/-- A value enters a table under a number of its own, and the others stay under theirs. -/
structure Enters (t : HandleTable ν) (value : ν) (id : UInt64) (t' : HandleTable ν) : Prop where
  nonzero : id ≠ 0
  unheld : t.get? id = none
  held : t'.get? id = some value
  others : ∀ other ≠ id, t'.get? other = t.get? other

theorem Puts.enters (h : Puts value t id t') : t.Enters value id t' := by
  induction h with
  | given nonzero unheld =>
    refine ⟨nonzero, unheld, FiniteMap.get?_insert_self .., fun other hother => ?_⟩
    exact (FiniteMap.get?_insert ..).trans (if_neg hother)
  | passed _ _ ih => exact ⟨ih.nonzero, ih.unheld, ih.held, ih.others⟩

theorem Puts.values_eq (h : Puts value t id t') : t'.held.values = value :: t.held.values := by
  induction h with
  | given _ unheld => exact FiniteMap.values_insert unheld
  | passed _ _ ih => exact ih

theorem Puts.unique (h : Puts value t id t') {id' : UInt64} {t'' : HandleTable ν}
    (h' : Puts value t id' t'') : id' = id ∧ t'' = t' := by
  induction h with
  | given nonzero unheld =>
    cases h' with
    | given => exact ⟨rfl, rfl⟩
    | passed taken => exact (taken.elim nonzero (· unheld)).elim
  | passed taken _ ih =>
    cases h' with
    | given nonzero unheld => exact (taken.elim nonzero (· unheld)).elim
    | passed _ later => exact ih later

theorem freeFrom?_of_next (t : HandleTable ν) (next : UInt64) (fuel : Nat) (id : UInt64) :
    { t with next }.freeFrom? fuel id = t.freeFrom? fuel id := by
  induction fuel generalizing id with
  | zero => rfl
  | succ fuel ih =>
    rw [freeFrom?, ih, freeFrom?]
    rfl

theorem puts_of_freeFrom? (value : ν) {fuel : Nat} (h : t.freeFrom? fuel t.next = some id) :
    Puts value t id ⟨t.held.insert id value, id + 1⟩ := by
  induction fuel generalizing t with
  | zero => cases h
  | succ fuel ih =>
    rw [freeFrom?] at h
    split at h
    next hfree =>
      obtain rfl := Option.some.inj h
      exact .given (isFree_iff.1 hfree).1 (isFree_iff.1 hfree).2
    next htaken =>
      refine .passed ?_ (ih (t := { t with next := t.next + 1 }) ?_)
      · rw [isFree_iff, not_and_or, not_not] at htaken
        exact htaken
      · rw [freeFrom?_of_next]
        exact h

/-- While a number is free, the rounds come to an end, and the value is put in there. -/
theorem puts_insert (value : ν) (hfree : ∃ id ≠ 0, t.get? id = none) :
    Puts value t (t.insert value).1 (t.insert value).2 := by
  obtain ⟨id, hid⟩ := hfree
  obtain ⟨found, hfound⟩ := Option.isSome_iff_exists.1 (free?_isSome_of_isFree (isFree_iff.2 hid))
  have hinsert : t.insert value = (found, ⟨t.held.insert found value, found + 1⟩) := by
    rw [insert, hfound]
  rw [hinsert]
  exact puts_of_freeFrom? value hfound

theorem puts_iff (hfree : ∃ id ≠ 0, t.get? id = none) :
    Puts value t id t' ↔ (id, t') = t.insert value := by
  constructor
  · intro h
    obtain ⟨rfl, rfl⟩ := (puts_insert value hfree).unique h
    rfl
  · intro h
    obtain ⟨rfl, rfl⟩ := Prod.ext_iff.1 h
    exact puts_insert value hfree

def removeEach : List UInt64 → HandleTable ν → List ν × HandleTable ν
  | [], t => ([], t)
  | id :: ids, t =>
    let (value?, t) := t.remove id
    let (values, t) := removeEach ids t
    (value?.toList ++ values, t)

/-- Of all numbers that are held, in any order, each gives its value, and none is held any more. -/
theorem removeEach_keys {ids : List UInt64} (hids : (ids : Multiset UInt64) = t.keys) :
    List.Forall₂ (fun id value => t.get? id = some value) ids (removeEach ids t).1 ∧
      (removeEach ids t).1.Perm t.held.values ∧ (removeEach ids t).2 = t.drain.2 := by
  induction ids generalizing t with
  | nil =>
    obtain ⟨⟨entries, nodup⟩, next⟩ := t
    obtain rfl : entries = [] := by
      have hnil := congrArg Multiset.card hids
      simpa [keys, eq_comm] using hnil
    exact ⟨.nil, .refl _, rfl⟩
  | cons id ids ih =>
    have hmem : id ∈ t.keys := hids ▸ Multiset.mem_coe.2 List.mem_cons_self
    obtain ⟨value, hvalue⟩ := Option.isSome_iff_exists.1 (mem_keys_iff.1 hmem)
    have hrest : (ids : Multiset UInt64) = (t.remove id).2.keys := by
      rwa [keys_remove hvalue, ← Multiset.cons_coe, Multiset.cons_inj_right] at hids
    obtain ⟨hgives, hvalues, htable⟩ := ih hrest
    have hfirst : (removeEach (id :: ids) t).1 = value :: (removeEach ids (t.remove id).2).1 := by
      rw [removeEach, remove, hvalue]
      rfl
    rw [hfirst]
    refine ⟨.cons hvalue (hgives.imp fun other v hv => ?_), ?_, htable⟩
    · rw [get?_remove] at hv
      split at hv
      · cases hv
      · exact hv
    · exact (hvalues.cons value).trans (values_remove hvalue).symm

/-- In the order in which it holds them, the numbers of a table give what a drain gives. -/
theorem removeEach_entries (t : HandleTable ν) :
    removeEach (t.held.entries.map Prod.fst) t = t.drain := by
  obtain ⟨⟨entries, nodup⟩, next⟩ := t
  induction entries with
  | nil => rfl
  | cons entry rest ih =>
    obtain ⟨id, value⟩ := entry
    obtain ⟨hunheld, hrest⟩ := List.nodup_cons.1 nodup
    let t : HandleTable ν := ⟨⟨(id, value) :: rest, nodup⟩, next⟩
    have hremove : t.remove id = (some value, ⟨⟨rest, hrest⟩, next⟩) := by
      have hget : t.get? id = some value :=
        (FiniteMap.get?_eq_some_iff _ _ _).2 List.mem_cons_self
      have herase : rest.filter (fun e => !decide (e.1 = id)) = rest := by
        refine List.filter_eq_self.2 fun e he => ?_
        have hne : e.1 ≠ id := fun h => hunheld (List.mem_map.2 ⟨e, he, h⟩)
        simp [hne]
      rw [remove, hget]
      simp [t, FiniteMap.erase, herase]
    change removeEach (id :: rest.map Prod.fst) t = t.drain
    rw [removeEach, hremove]
    dsimp only
    rw [ih hrest]
    rfl

inductive Call (ν : Type) where
  | insert (value : ν)
  | remove (id : UInt64)
  | drain

inductive Event (ν : Type) where
  | inserted (value : ν) (id : UInt64)
  | removed (id : UInt64) (answer : Option ν)
  | drained (values : List ν)

def Event.call : Event ν → Call ν
  | .inserted value _ => .insert value
  | .removed id _ => .remove id
  | .drained _ => .drain

/-- Whether a call takes out the value of a number, if there is one. -/
def Event.ends (id : UInt64) : Event ν → Bool
  | .inserted .. => false
  | .removed taken _ => taken == id
  | .drained _ => true

def Call.isInsert : Call ν → Bool
  | .insert _ => true
  | _ => false

def Call.perform : Call ν → HandleTable ν → Event ν × HandleTable ν
  | .insert value, t => (.inserted value (t.insert value).1, (t.insert value).2)
  | .remove id, t => (.removed id (t.remove id).1, (t.remove id).2)
  | .drain, t => (.drained t.drain.1, t.drain.2)

def performAll (calls : List (Call ν)) : List (Event ν) × HandleTable ν :=
  calls.foldl (fun (events, t) c => (events ++ [(c.perform t).1], (c.perform t).2)) ([], new)

/-- What a call may give and leave.  A drain takes the numbers that are held in any order. -/
inductive Step : HandleTable ν → Event ν → HandleTable ν → Prop
  | inserted {t t' : HandleTable ν} {value : ν} {id : UInt64} (puts : Puts value t id t') :
    Step t (.inserted value id) t'
  | removed (t : HandleTable ν) (id : UInt64) : Step t (.removed id (t.remove id).1) (t.remove id).2
  | drained {t : HandleTable ν} {ids : List UInt64} (all : (ids : Multiset UInt64) = t.keys) :
    Step t (.drained (removeEach ids t).1) (removeEach ids t).2

/-- What some calls on an empty table, one after the other, may give and leave. -/
inductive Run : List (Event ν) → HandleTable ν → Prop
  | start : Run [] new
  | next {events : List (Event ν)} {t t' : HandleTable ν} {e : Event ν} (earlier : Run events t)
    (step : Step t e t') : Run (events ++ [e]) t'

def issued (events : List (Event ν)) : List UInt64 :=
  events.filterMap fun
    | .inserted _ id => some id
    | _ => none

def entered (events : List (Event ν)) : Multiset ν :=
  events.filterMap fun
    | .inserted value _ => some value
    | _ => none

def returned (events : List (Event ν)) : Multiset ν :=
  events.flatMap fun
    | .inserted .. => []
    | .removed _ answer => answer.toList
    | .drained values => values

/-- A value was put in under a number and was not taken out since. -/
def Live (events : List (Event ν)) (id : UInt64) (value : ν) : Prop :=
  ∃ before after, events = before ++ .inserted value id :: after ∧
    ∀ later ∈ after, later.ends id = false

def numbers (count : Nat) : List UInt64 := (List.range count).map fun n => UInt64.ofNat (n + 1)

section Histories

variable {events before : List (Event ν)} {e : Event ν} {count : Nat}

/-- After one more call, those values are live that it puts in, and those that were and that it does not
take out. -/
theorem live_concat_iff : Live (events ++ [e]) id value ↔
    e = .inserted value id ∨ Live events id value ∧ e.ends id = false := by
  constructor
  · rintro ⟨before, after, hsplit, hkeeps⟩
    rcases List.eq_nil_or_concat' after with rfl | ⟨after, last, rfl⟩
    · exact .inl (List.singleton_injective (List.append_inj' hsplit rfl).2)
    · rw [← List.cons_append, ← List.append_assoc] at hsplit
      obtain ⟨rfl, hlast⟩ := List.append_inj' hsplit rfl
      obtain rfl := List.singleton_injective hlast
      obtain ⟨hafter, hend⟩ := List.forall_mem_append.1 hkeeps
      exact .inr ⟨⟨before, after, rfl, hafter⟩, hend e (List.mem_singleton_self e)⟩
  · rintro (rfl | ⟨⟨before, after, rfl, hkeeps⟩, hend⟩)
    · exact ⟨events, [], rfl, by simp⟩
    · refine ⟨before, after ++ [e], by simp, List.forall_mem_append.2 ⟨hkeeps, by simpa using hend⟩⟩

theorem not_live_nil : ¬ Live ([] : List (Event ν)) id value := by
  rintro ⟨before, after, h, _⟩
  simp at h

theorem Live.mem_issued (h : Live events id value) : id ∈ issued events := by
  obtain ⟨before, after, rfl, _⟩ := h
  simp [issued]

theorem toNat_le_of_mem_numbers (hcount : count < UInt64.size) (h : id ∈ numbers count) :
    id.toNat ≤ count := by
  obtain ⟨n, hn, rfl⟩ := List.mem_map.1 h
  rw [List.mem_range] at hn
  rw [UInt64.toNat_ofNat_of_lt' (by omega)]
  exact hn

theorem numbers_succ (count : Nat) : numbers (count + 1) = numbers count ++ [.ofNat (count + 1)] := by
  rw [numbers, List.range_succ, List.map_append]
  rfl

theorem nodup_numbers (hcount : count < UInt64.size) : (numbers count).Nodup := by
  have hfollow : numbers count = (List.range count).map fun n => 1 + UInt64.ofNat n := by
    rw [numbers]
    congr 1
    funext n
    rw [UInt64.ofNat_add, UInt64.add_comm]
    rfl
  rw [hfollow]
  exact nodup_following 1 hcount.le

theorem issued_append (first rest : List (Event ν)) :
    issued (first ++ rest) = issued first ++ issued rest := List.filterMap_append

theorem length_issued (events : List (Event ν)) :
    (issued events).length = (events.map Event.call).countP Call.isInsert := by
  rw [issued, List.length_filterMap_eq_countP, List.countP_map]
  congr 1
  funext e
  cases e <;> rfl

theorem entered_append (first rest : List (Event ν)) :
    entered (first ++ rest) = entered first + entered rest := by
  rw [entered, List.filterMap_append]
  rfl

theorem returned_append (first rest : List (Event ν)) :
    returned (first ++ rest) = returned first + returned rest := by
  rw [returned, List.flatMap_append]
  rfl

/-- One call leaves the value that it puts in, and those that it does not take out. -/
theorem Step.get?_eq_some_iff (h : Step t e t') :
    t'.get? id = some value ↔
      e = .inserted value id ∨ t.get? id = some value ∧ e.ends id = false := by
  cases h with
  | @inserted _ given number puts =>
    have henters := puts.enters
    by_cases hid : id = number
    · subst hid
      simp [henters.held, henters.unheld]
    · simp [henters.others id hid, Event.ends, Ne.symm hid]
  | removed taken =>
    rw [get?_remove]
    by_cases hid : id = taken
    · simp [hid, Event.ends]
    · simp [hid, Event.ends, Ne.symm hid]
  | drained all =>
    rw [(removeEach_keys all).2.2]
    simp [drain, get?, Event.ends]

theorem Step.balance (h : Step t e t') :
    entered [e] + t.held.values = returned [e] + t'.held.values := by
  cases h with
  | inserted puts =>
    rw [puts.values_eq]
    rfl
  | removed taken =>
    cases hget : t.get? taken with
    | none =>
      rw [remove_eq_of_get?_eq_none hget]
      rfl
    | some value =>
      have hvalues := Multiset.coe_eq_coe.2 (values_remove hget)
      rw [hvalues]
      simp [remove, hget, entered, returned]
  | @drained ids all =>
    obtain ⟨_, hvalues, htable⟩ := removeEach_keys all
    have hempty : (removeEach ids t).2.held.values = [] := by
      rw [htable]
      rfl
    rw [hempty, ← Multiset.coe_eq_coe.2 hvalues]
    simp [entered, returned]

namespace Run

/-- What is found under a number was put in under it and not taken out since. -/
theorem get?_eq_some_iff (h : Run events t) (id : UInt64) (value : ν) :
    t.get? id = some value ↔ Live events id value := by
  induction h generalizing id value with
  | start => exact ⟨nofun, fun h => absurd h not_live_nil⟩
  | next _ step ih => rw [step.get?_eq_some_iff, live_concat_iff, ih]

theorem balance (h : Run events t) : entered events = returned events + t.held.values := by
  induction h with
  | start => rfl
  | @next events t t' e _ step ih =>
    calc entered (events ++ [e])
      _ = returned events + (entered [e] + t.held.values) := by
        rw [entered_append, ih, add_assoc, add_comm (t.held.values : Multiset ν)]
      _ = returned (events ++ [e]) + t'.held.values := by
        rw [step.balance, returned_append, add_assoc]

end Run

/-- A table counts the numbers that it hands out, from one on. -/
structure Counts (events : List (Event ν)) (t : HandleTable ν) : Prop where
  next : t.next = UInt64.ofNat ((issued events).length + 1)
  issued_eq : issued events = numbers (issued events).length

theorem Run.next_free (h : Run events t) (hcounts : Counts events t)
    (room : (issued events).length + 1 < UInt64.size) : t.next ≠ 0 ∧ t.get? t.next = none := by
  refine isFree_iff.1 (isFree_next hcounts.next (fun id value hvalue => ?_) room)
  have hmem := ((h.get?_eq_some_iff id value).1 hvalue).mem_issued
  rw [hcounts.issued_eq] at hmem
  exact toNat_le_of_mem_numbers (by omega) hmem

theorem Counts.of_idle (h : Counts events t) (hissued : issued [e] = []) (hnext : t'.next = t.next) :
    Counts (events ++ [e]) t' := by
  have hsame : issued (events ++ [e]) = issued events := by
    rw [issued_append, hissued, List.append_nil]
  exact ⟨by rw [hnext, hsame, h.next], by rw [hsame, ← h.issued_eq]⟩

theorem Counts.step (h : Counts events t) (hrun : Run events t) (hstep : Step t e t')
    (room : (issued (events ++ [e])).length < UInt64.size) : Counts (events ++ [e]) t' := by
  cases hstep with
  | inserted puts =>
    have hone (id : UInt64) (value : ν) :
        issued (events ++ [.inserted value id]) = issued events ++ [id] := issued_append ..
    rw [hone, List.length_append] at room
    obtain ⟨hnonzero, hunheld⟩ := hrun.next_free h room
    obtain ⟨rfl, rfl⟩ := (Puts.given hnonzero hunheld).unique puts
    constructor
    · rw [hone, List.length_append, List.length_singleton, UInt64.ofNat_add, ← h.next]
      rfl
    · rw [hone, List.length_append, List.length_singleton, numbers_succ, ← h.issued_eq, h.next]
  | removed => exact h.of_idle rfl rfl
  | drained all =>
    apply h.of_idle rfl
    rw [(removeEach_keys all).2.2]
    rfl

theorem Run.counts (h : Run events t) (room : (issued events).length < UInt64.size) :
    Counts events t := by
  induction h with
  | start => exact ⟨rfl, rfl⟩
  | next earlier step ih =>
    refine (ih ?_).step earlier step room
    rw [issued_append, List.length_append] at room
    omega

/-- What the operations of a table do is one of the things that a call may do. -/
theorem step_perform (c : Call ν) (t : HandleTable ν)
    (hfree : c.isInsert = true → ∃ id ≠ 0, t.get? id = none) :
    Step t (c.perform t).1 (c.perform t).2 := by
  cases c with
  | insert value => exact .inserted (puts_insert value (hfree rfl))
  | remove id => exact .removed t id
  | drain =>
    have hdrained := @Step.drained _ t (t.held.entries.map Prod.fst) rfl
    rwa [removeEach_entries] at hdrained

/-- Calls that put in fewer values than there are numbers can be made, one after the other. -/
theorem run_performAll (calls : List (Call ν)) (room : calls.countP Call.isInsert < UInt64.size) :
    Run (performAll calls).1 (performAll calls).2 ∧
      (performAll calls).1.map Event.call = calls := by
  induction calls using List.reverseRecOn with
  | nil => exact ⟨.start, rfl⟩
  | append_singleton calls c ih =>
    rw [List.countP_append] at room
    obtain ⟨hrun, hcalls⟩ := ih (by omega)
    have hlast : performAll (calls ++ [c]) =
        ((performAll calls).1 ++ [(c.perform (performAll calls).2).1],
          (c.perform (performAll calls).2).2) := by
      rw [performAll, List.foldl_append]
      rfl
    have hcall : (c.perform (performAll calls).2).1.call = c := by cases c <;> rfl
    rw [hlast]
    refine ⟨hrun.next (step_perform c _ fun hinsert => ?_), by simp [hcalls, hcall]⟩
    have hlength := length_issued (performAll calls).1
    rw [hcalls] at hlength
    rw [List.countP_singleton, if_pos hinsert] at room
    exact ⟨_, hrun.next_free (hrun.counts (by omega)) (by omega)⟩

theorem Run.of_concat (h : Run (before ++ [e]) t') : ∃ t, Run before t ∧ Step t e t' := by
  generalize hevents : before ++ [e] = events at h
  cases h with
  | start => simp at hevents
  | @next earlier mid _ last hrun hstep =>
    obtain ⟨rfl, hlast⟩ := List.append_inj' hevents rfl
    obtain rfl := List.singleton_injective hlast
    exact ⟨mid, hrun, hstep⟩

end Histories

/-- A value is put in under a number that is not zero and not held, at the end of rounds that do end, and
the others stay under theirs.  From an empty table on, the numbers are one, two, three and so on, none of
them twice; what is found under a number is what was put in under it and not taken out since; each value
that was put in is given back once or still held; and a drain gives those that are live, each once, and
leaves none. -/
theorem numbers_never_reused (ν : Type) :
    (∀ (t : HandleTable ν) value, (∃ id ≠ 0, t.get? id = none) →
      (∀ id t', Puts value t id t' ↔ (id, t') = t.insert value) ∧
      t.Enters value (t.insert value).1 (t.insert value).2) ∧
    (∀ calls : List (Call ν), calls.countP Call.isInsert < UInt64.size →
      Run (performAll calls).1 (performAll calls).2 ∧
      (performAll calls).1.map Event.call = calls) ∧
    ∀ (events : List (Event ν)) t, Run events t →
      ((events.map Event.call).countP Call.isInsert < UInt64.size →
        issued events = numbers ((events.map Event.call).countP Call.isInsert) ∧
        (issued events).Nodup) ∧
      (∀ id value, t.get? id = some value ↔ Live events id value) ∧
      (∀ id, t.contains id = true ↔ ∃ value, Live events id value) ∧
      entered events = returned events + t.held.values ∧
      (∀ before id answer, events = before ++ [.removed id answer] →
        ∀ value, answer = some value ↔ Live before id value) ∧
      ∀ before values, events = before ++ [.drained values] →
        (∃ ids, ids.Nodup ∧ List.Forall₂ (Live before) ids values ∧
          ∀ id value, Live before id value → id ∈ ids) ∧
        t.isEmpty = true := by
  refine ⟨fun t value hfree => ⟨fun id t' => puts_iff hfree, (puts_insert value hfree).enters⟩,
    run_performAll, fun events t hrun => ⟨?_, hrun.get?_eq_some_iff, ?_, hrun.balance, ?_, ?_⟩⟩
  · intro room
    rw [← length_issued] at room ⊢
    have hissued := (hrun.counts room).issued_eq
    exact ⟨hissued, hissued ▸ nodup_numbers room⟩
  · intro id
    rw [contains, FiniteMap.contains_iff]
    exact exists_congr fun value => hrun.get?_eq_some_iff id value
  · rintro before id answer rfl value
    obtain ⟨mid, hbefore, hstep⟩ := hrun.of_concat
    cases hstep with
    | removed => exact hbefore.get?_eq_some_iff id value
  · rintro before values rfl
    obtain ⟨mid, hbefore, hstep⟩ := hrun.of_concat
    cases hstep with
    | @drained ids all =>
      obtain ⟨hgives, _, htable⟩ := removeEach_keys all
      refine ⟨⟨ids, ?_, hgives.imp fun id value => (hbefore.get?_eq_some_iff id value).1, ?_⟩, ?_⟩
      · exact Multiset.coe_nodup.1 (all ▸ nodup_keys)
      · intro id value hlive
        have hmem : id ∈ mid.keys := mem_keys_iff.2 (by
          rw [(hbefore.get?_eq_some_iff id value).2 hlive]
          rfl)
        rwa [← all, Multiset.mem_coe] at hmem
      · rw [htable]
        rfl

/-- The count stands at the last number, which is held, and so is one: the value gets two.  Of four values
that are put into an empty table, two of them equal, three are given back, and the last is found under
four. -/
theorem numbers_skip_held_after_wrap :
    let t : HandleTable Nat :=
      ⟨(FiniteMap.empty.insert 0xffffffffffffffff 10).insert 1 11, 0xffffffffffffffff⟩
    let calls : List (Call Nat) :=
      [.insert 5, .insert 5, .remove 1, .insert 6, .remove 1, .drain, .insert 7]
    let made := performAll calls
    (2 ≠ (0 : UInt64) ∧ t.get? 2 = none) ∧
    Puts 12 t 2 (t.insert 12).2 ∧ t.Enters 12 2 (t.insert 12).2 ∧
    calls.countP Call.isInsert < UInt64.size ∧ Run made.1 made.2 ∧ issued made.1 = [1, 2, 3, 4] ∧
    Live made.1 4 7 ∧ entered made.1 = returned made.1 + {7} ∧ returned made.1 = {5, 5, 6} := by
  intro t calls made
  have hfree : 2 ≠ (0 : UInt64) ∧ t.get? 2 = none := by decide +kernel
  have hnumber : (t.insert 12).1 = 2 := by decide +kernel
  have hroom : calls.countP Call.isInsert < UInt64.size := by decide
  have hheld : made.2.get? 4 = some 7 := by decide +kernel
  have hvalues : made.2.held.values = [7] := by decide +kernel
  have hreturned : returned made.1 = {5, 5, 6} := by decide +kernel
  obtain ⟨hputs, hmade, hruns⟩ := numbers_never_reused Nat
  obtain ⟨hrounds, henters⟩ := hputs t 12 ⟨2, hfree⟩
  obtain ⟨hrun, hcalls⟩ := hmade calls hroom
  obtain ⟨hissued, hlive, _, hbalance, _⟩ := hruns _ _ hrun
  rw [hnumber] at henters
  rw [hcalls] at hissued
  rw [hvalues] at hbalance
  exact ⟨hfree, (hrounds _ _).2 (by rw [← hnumber]), henters, hroom, hrun, (hissued hroom).1,
    (hlive 4 7).1 hheld, hbalance, hreturned⟩

end InodeBridge.HandleTable
