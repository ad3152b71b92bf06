import InodeBridge.Host.Files
import InodeBridge.Proofs.Host.Changes
import InodeBridge.Proofs.Host.Walking
import InodeBridge.Proofs.Time

/-! # What the operations of a host do to its tree

All operations but those that remove or rename an entry only let the tree grow.  Those that do are read
here for the entries of directories at paths without links.
-/
namespace InodeBridge.Host

variable {h h' : Host} {path : Path} {d id : ObjectId} {name : Name}

/-- What is opened was there and can be written, or is a file made where the path leads. -/
theorem openOrCreate_cases {mode : UInt32} (ho : h.openOrCreate path mode = .ok (id, h')) :
    (∃ s, h.locate .create path = .ok (.found id, s) ∧ h.checkOpen id true = .ok () ∧ h' = h) ∨
      ∃ d name s, h.locate .create path = .ok (.vacant d name, s) ∧ id = h.nextObject ∧
        h' = (h.add d name (.file .empty) (h.permitted 0o7777 mode)).2 := by
  obtain ⟨⟨spot, s⟩, hl, ho⟩ := bind_eq_ok.1 ho
  cases spot with
  | vacant d name =>
    obtain ⟨hid, hh⟩ := Prod.mk.inj (Except.ok.inj ho)
    exact .inr ⟨d, name, s, hl, hid.symm, hh.symm⟩
  | found x =>
    obtain ⟨_, hcheck, ho⟩ := bind_eq_ok.1 ho
    obtain ⟨rfl, rfl⟩ := Prod.mk.inj (Except.ok.inj ho)
    exact .inl ⟨s, hl, hcheck, rfl⟩

section Growing

variable (ht : h.IsTree)

include ht

theorem grows_mkdir {mode : UInt32} (hm : h.mkdir path mode = .ok h') : h.Grows h' := by
  obtain ⟨⟨d, name⟩, hv, hm⟩ := bind_eq_ok.1 hm
  obtain ⟨hd, hfree, hname⟩ := vacant_of_vacancy hv
  obtain rfl := Except.ok.inj hm
  apply grows_add ht _ hd hfree hname
  intro entries parent heq
  obtain ⟨rfl, rfl⟩ := Node.directory.inj heq
  exact ⟨rfl, exists_of_isDirectory hd⟩

theorem grows_symlink {content : Path} (hs : h.symlink content path = .ok h') : h.Grows h' := by
  unfold symlink at hs
  split at hs
  · simp at hs
  split at hs
  · simp at hs
  obtain ⟨⟨d, name⟩, hv, hs⟩ := bind_eq_ok.1 hs
  obtain ⟨hd, hfree, hname⟩ := vacant_of_vacancy hv
  obtain rfl := Except.ok.inj hs
  exact grows_add ht _ hd hfree hname (by simp)

theorem grows_link {source : Path} (hl : h.link source path = .ok h') : h.Grows h' := by
  obtain ⟨id, hid, hl⟩ := bind_eq_ok.1 hl
  obtain ⟨⟨d, name⟩, hv, hl⟩ := bind_eq_ok.1 hl
  obtain ⟨hd, hfree, hname⟩ := vacant_of_vacancy hv
  dsimp only at hl
  split at hl
  · simp at hl
  next hfile =>
    obtain rfl := Except.ok.inj hl
    rw [Bool.not_eq_true] at hfile
    refine grows_attach hd hfree hname (exists_of_find ht hid) fun ht => ⟨?_, fun _ _ _ => hfile⟩
    rintro rfl
    simp [ht.root_directory] at hfile

theorem grows_openOrCreate {mode : UInt32} (ho : h.openOrCreate path mode = .ok (id, h')) :
    h.Grows h' := by
  obtain ⟨_, _, _, rfl⟩ | ⟨d, name, _, hl, _, rfl⟩ := openOrCreate_cases ho
  · exact .refl _
  · obtain ⟨hd, hfree, hname⟩ := vacant_of_locate hl
    exact grows_add ht _ hd hfree hname (by simp)

end Growing

theorem pwrite_eq_ok {writable : Bool} {offset : Nat} {data : Bytes}
    (hw : h.pwrite id writable offset data = .ok h') :
    h' = h.alterContent id (·.write offset data) := by
  obtain ⟨_, _, hw⟩ := bind_eq_ok.1 hw
  split at hw
  · cases hw
  · split at hw
    · cases hw
    · exact (Except.ok.inj hw).symm

theorem grows_pwrite {writable : Bool} {offset : Nat} {data : Bytes}
    (hw : h.pwrite id writable offset data = .ok h') : h.Grows h' := by
  rw [pwrite_eq_ok hw]
  exact grows_alterContent h id _

theorem resize_eq_ok {writable : Bool} {length : Nat}
    (hr : h.resize id writable length = .ok h') :
    (∃ content, h.content? id = some content) ∧ h' = h.alterContent id (·.resize length) := by
  unfold resize at hr
  split at hr
  · cases hr
  next hcheck =>
    simp only [Bool.or_eq_true, not_or, Bool.not_eq_true, Option.isNone_eq_false_iff] at hcheck
    exact ⟨Option.isSome_iff_exists.1 hcheck.2, (Except.ok.inj hr).symm⟩

theorem grows_resize {writable : Bool} {length : Nat}
    (hr : h.resize id writable length = .ok h') : h.Grows h' := by
  rw [(resize_eq_ok hr).2]
  exact grows_alterContent h id _

theorem grows_chmod {mode : UInt32} (hc : h.chmod path mode = .ok h') : h.Grows h' := by
  obtain ⟨id, _, hc⟩ := bind_eq_ok.1 hc
  obtain rfl := Except.ok.inj hc
  exact grows_alter h id fun _ => rfl

theorem grows_setTimes {accessed modified : FileTime}
    (hs : h.setTimes path accessed modified = .ok h') : h.Grows h' := by
  unfold setTimes at hs
  split at hs
  · obtain rfl := Except.ok.inj hs
    exact .refl _
  split at hs
  · cases hs
  obtain ⟨id, _, hs⟩ := bind_eq_ok.1 hs
  obtain rfl := Except.ok.inj hs
  exact grows_alter h id fun _ => rfl

section Stamps

variable {f g : FileTime} {accessed modified : Timestamp}

/-- Floored nanoseconds are within a second, so they do not stand for a stamp. -/
theorem areNanos_of_floors (hf : f.Floors accessed) :
    areNanos f.nanos = true ∧ f.nanos ≠ presentNanos ∧ f.nanos ≠ keptNanos := by
  have hlt : f.nanos.toNat < nanosPerSecond := by
    rw [(FileTime.floors_iff.1 hf).2]
    exact accessed.nanos.isLt
  refine ⟨by simp [areNanos, hlt], ?_, ?_⟩
  all_goals
    intro hmark
    rw [hmark] at hlt
    exact absurd hlt (by decide)

theorem restamped_of_floors (hf : f.Floors accessed) (stamp : Timestamp) :
    h.restamped f stamp = accessed := by
  obtain ⟨_, hpresent, hkept⟩ := areNanos_of_floors hf
  rw [restamped, if_neg hpresent, if_neg hkept, FileTime.instant_of_floors hf]

theorem setTimes_of_floors (hf : f.Floors accessed) (hg : g.Floors modified) :
    h.setTimes path f g = (h.find .keep path).map fun id =>
      h.alter id fun o => { o with accessed, modified, changed := h.clock } := by
  obtain ⟨hfirst, _, hkept⟩ := areNanos_of_floors hf
  obtain ⟨hsecond, _, _⟩ := areNanos_of_floors hg
  rw [setTimes, if_neg (by simp [hkept]), if_neg (by simp [hfirst, hsecond])]
  simp only [restamped_of_floors hf, restamped_of_floors hg]
  rfl

end Stamps

theorem list_eq_ok {names : List Name} (hl : h.list path = .ok names) :
    ∃ id entries, h.entries? id = some entries ∧ names = entries.entries.map Prod.fst := by
  obtain ⟨id, _, hl⟩ := bind_eq_ok.1 hl
  cases hentries : h.entries? id with
  | none => simp [hentries] at hl
  | some entries =>
    refine ⟨id, entries, hentries, ?_⟩
    simpa [hentries, eq_comm] using hl

theorem lookup_eq_ok_iff {object : Object} : h.lookup path = .ok (id, object) ↔
    h.find .keep path = .ok id ∧ h.object? id = some object := by
  rw [lookup, bind_eq_ok]
  constructor
  · rintro ⟨x, hx, hl⟩
    split at hl
    next ho =>
      obtain ⟨rfl, rfl⟩ := Prod.mk.inj (Except.ok.inj hl)
      exact ⟨hx, ho⟩
    · cases hl
  · rintro ⟨hid, ho⟩
    exact ⟨id, hid, by rw [ho]⟩

theorem find_of_lookup {object : Object} (hl : h.lookup path = .ok (id, object)) :
    h.find .keep path = .ok id := (lookup_eq_ok_iff.1 hl).1

end InodeBridge.Host
