import InodeBridge.HostStorage
import InodeBridge.Proofs.Host.Operations

/-! # What the calls to a host tell

A call that succeeds tells that the host did what was asked, or what it says of its objects; an answer
to a question leaves the host as it was.
-/
namespace InodeBridge.HostStorage

open Host (ObjectId)

variable {s s' : HostStorage} {path : Path}

theorem ask_eq_ok {α : Type} {said : Except Errno α} {a : α} (h : s.ask said = (.ok a, s')) :
    said = .ok a ∧ s' = s := by
  obtain ⟨hsaid, rfl⟩ := Prod.mk.inj h
  cases said with
  | ok b => exact ⟨congrArg _ (Except.ok.inj hsaid), rfl⟩
  | error e => cases hsaid

theorem change_eq_ok {r : Except Errno Host} (h : s.change r = (.ok (), s')) : r = .ok s'.host := by
  cases r with
  | ok host =>
    obtain ⟨_, rfl⟩ := Prod.mk.inj h
    rfl
  | error e => simp [change] at h

theorem register_eq_ok {writable : Bool} {opening : Except Errno (ObjectId × Host)} {fd : Descriptor}
    (h : s.register writable opening = (.ok fd, s')) :
    ∃ object, opening = .ok (object, s'.host) ∧ fd = (s.files.insert ⟨object, writable⟩).1 ∧
      s'.files = (s.files.insert ⟨object, writable⟩).2 := by
  cases opening with
  | ok opened =>
    obtain ⟨hfd, rfl⟩ := Prod.mk.inj h
    exact ⟨opened.1, rfl, (Except.ok.inj hfd).symm, rfl⟩
  | error e => cases h

theorem answer_stat {id : ObjectId} {object : Host.Object} (hlookup : s.host.lookup path = .ok (id, object)) :
    answer (.stat path) s = (.ok (statOf s.host id object), s) := by
  rw [answer, hlookup]
  rfl

theorem stat_eq_ok {stat : Stat} (h : answer (.stat path) s = (.ok stat, s')) :
    s' = s ∧ ∃ id object, s.host.lookup path = .ok (id, object) ∧
      stat = statOf s.host id object := by
  obtain ⟨hstat, rfl⟩ := ask_eq_ok h
  refine ⟨rfl, ?_⟩
  cases hlookup : s'.host.lookup path with
  | error e => simp [hlookup, Except.map] at hstat
  | ok found =>
    rw [hlookup] at hstat
    exact ⟨found.1, found.2, rfl, (Except.ok.inj hstat).symm⟩

/-- What is listed are the names of the entries of a directory, in the order of the bytes. -/
theorem readdir_eq_ok {names : List Name} (h : answer (.readdir path) s = (.ok names, s')) :
    s' = s ∧ ∃ id entries, s.host.entries? id = some entries ∧
      names = (entries.entries.map Prod.fst).mergeSort Bytes.lexLE := by
  obtain ⟨hnames, rfl⟩ := ask_eq_ok h
  refine ⟨rfl, ?_⟩
  cases hlist : s'.host.list path with
  | error e => simp [hlist, Except.map] at hnames
  | ok listed =>
    rw [hlist] at hnames
    obtain ⟨id, entries, hentries, rfl⟩ := Host.list_eq_ok hlist
    exact ⟨id, entries, hentries, (Except.ok.inj hnames).symm⟩

end InodeBridge.HostStorage
