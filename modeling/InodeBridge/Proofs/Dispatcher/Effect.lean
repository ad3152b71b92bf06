import InodeBridge.Proofs.Dispatcher.Serving

/-! # What a request does to the table of inodes

A request either leaves the table as it is, hands one path to the kernel, binds what it lists, takes
references away, drops the path of an entry that was removed, or moves the paths of a renamed one.  Each
of these comes with the calls that led to it.
-/
namespace InodeBridge

open Storage (Call Event)

/-- Whether a call is one that takes a name out of a directory. -/
def Storage.Call.takesName : Call → Bool
  | .unlink _ | .rmdir _ | .rename _ _ => true
  | _ => false

def Storage.Event.removes (event : Event) : Bool := event.call.takesName && event.result.toBool

@[simp] theorem Storage.Event.removes_eq_false {event : Event}
    (h : event.call.takesName = false) : event.removes = false := by
  rw [removes, h, Bool.false_and]

@[simp] theorem Storage.Event.removes_stat (path : Path) (result : (Call.stat path).Result) :
    removes ⟨.stat path, result⟩ = false := rfl

/-- The inode that an outcome hands to the kernel, with one more reference. -/
def Outcome.handed? : Outcome → Option Inode
  | .entry e | .created e _ => some e.attributes.inode
  | _ => none

namespace Dispatcher

/-- The path that a request hands to the kernel if it succeeds. -/
def entryPath? (d : Dispatcher) : Request → Option Path
  | .lookup parent name => (d.lookupOf parent name).toOption
  | .mkdir parent name _ | .create parent name _ _ | .symlink parent name _
  | .link _ parent name => (d.childOf parent name).toOption
  | _ => none

/-- What a request does to the table of inodes, with the calls it makes and the answer it gets. -/
inductive Effect (d : Dispatcher) : Request → List Event → Option Outcome → InodeTable → Prop
  /-- Nothing was removed and nothing handed to the kernel. -/
  | quiet {req : Request} {events : List Event} {out : Option Outcome}
    (keeps : req.forgotten = []) (calm : ∀ event ∈ events, event.removes = false)
    (unhanded : out.bind Outcome.handed? = none) :
    Effect d req events out d.inodes
  /-- What is at a path was described and then handed to the kernel. -/
  | handed {req : Request} {events : List Event} {out : Option Outcome} {path : Path} {stat : Stat}
    (asked : d.entryPath? req = some path) (calm : ∀ event ∈ events, event.removes = false)
    (described : ⟨.stat path, .ok stat⟩ ∈ events)
    (hands : out.bind Outcome.handed? = some (d.inodes.bindLookup path).1) :
    Effect d req events out (d.inodes.bindLookup path).2
  /-- Entries of a directory were bound, those that could be described. -/
  | listed {inode : Inode} {handle : Handle} {offset : Int64} {budget : Nat} {events : List Event}
    {out : Option Outcome} {path : Path} {names bound : List Name}
    (resolves : d.inodes.resolve? inode = some path)
    (calm : ∀ event ∈ events, event.removes = false)
    (lists : ⟨.readdir path, .ok names⟩ ∈ events)
    (described : ∀ name ∈ bound,
      name ∈ names ∧ ∃ stat, ⟨.stat (path.child name), .ok stat⟩ ∈ events)
    (unhanded : out.bind Outcome.handed? = none) :
    Effect d (.readdir inode handle offset budget) events out
      (bindingAll path bound (bindingAbove inode path d.inodes).2)
  /-- References were taken away. -/
  | forgot {req : Request} : Effect d req [] none (forgetAll req.forgotten d.inodes)
  /-- An entry that is not a directory was removed. -/
  | unlinked {parent : Inode} {name : Name} {path : Path}
    (named : d.childOf parent name = .ok path) :
    Effect d (.unlink parent name) [⟨.unlink path, .ok ()⟩] (some .ok)
      (d.inodes.unbindPath path).2
  /-- An empty directory was removed. -/
  | rmdired {parent : Inode} {name : Name} {path : Path}
    (named : d.childOf parent name = .ok path) :
    Effect d (.rmdir parent name) [⟨.rmdir path, .ok ()⟩] (some .ok)
      (d.inodes.unbindPath path).2
  /-- An entry was renamed, and the paths at and below it moved. -/
  | moved {parent newParent : Inode} {name newName : Name} {source target : Path}
    (policy : d.options.renamePolicy = .move) (named : d.childOf parent name = .ok source)
    (renamed : d.childOf newParent newName = .ok target) :
    Effect d (.rename parent name newParent newName) [⟨.rename source target, .ok ()⟩] (some .ok)
      (d.inodes.rename source target).2
  /-- An entry was renamed, and the path it got bound afresh. -/
  | rebound {parent newParent : Inode} {name newName : Name} {source target : Path}
    (policy : d.options.renamePolicy = .rebind) (named : d.childOf parent name = .ok source)
    (renamed : d.childOf newParent newName = .ok target) :
    Effect d (.rename parent name newParent newName) [⟨.rename source target, .ok ()⟩] (some .ok)
      ((d.inodes.unbindPath target).2.bind target).2

/-- What is reported of an object is what storage says, but perhaps for its owner. -/
theorem attributes_eq (options : MountOptions) (inode : Inode) (stat : Stat) :
    options.attributes inode stat =
      ⟨{ stat with owner := options.owner.getD stat.owner }, inode⟩ := by
  rw [MountOptions.attributes]
  split
  next owner howner =>
    rw [howner]
    rfl
  next howner =>
    rw [howner]
    rfl

theorem entryReply_inode (d : Dispatcher) (path : Path) (stat : Stat) :
    (d.entryReply path stat).attributes.inode = (d.inodes.bindLookup path).1 := by
  rw [entryReply, attributes_eq]

section Serving

variable {d d' : Dispatcher} {events : List Event} {out : Option Outcome}

theorem Begins.entryPath? {req : Request} {c : Call} {path : Path} (begins : Begins d req c)
    (makes : c.made? = some path) : d.entryPath? req = some path := by
  cases begins with
  | mkdir named | symlink named | link _ named =>
    cases makes
    rw [Dispatcher.entryPath?, named]
    rfl
  | _ => cases makes

theorem forgotten_of_entryPath? {req : Request} {path : Path} (h : d.entryPath? req = some path) :
    req.forgotten = [] := by
  cases req with
  | forget | batchForget => simp [entryPath?] at h
  | _ => rfl

theorem Begins.forgotten {req : Request} {c : Call} (begins : Begins d req c) :
    req.forgotten = [] := by
  cases begins <;> rfl

theorem forgotten_of_fault? {req : Request} {e : RequestError} (bad : d.fault? req = some e) :
    req.forgotten = [] := by
  cases req with
  | forget | batchForget => simp [fault?] at bad
  | _ => rfl

theorem forgotten_of_settledBy? {req : Request} {outcome : Outcome}
    (settles : req.settledBy? = some outcome) : req.forgotten = [] := by
  cases req with
  | forget | batchForget => simp [Request.settledBy?] at settles
  | _ => rfl

theorem handed?_of_settledBy? {req : Request} {outcome : Outcome}
    (settles : req.settledBy? = some outcome) : outcome.handed? = none := by
  cases req <;> cases settles <;> rfl

theorem calm_of_calls {calls : List Call} {events : List Event}
    (hcalls : ∀ event ∈ events, event.call ∈ calls) (calm : ∀ c ∈ calls, c.takesName = false) :
    ∀ event ∈ events, event.removes = false := fun event hevent =>
  Event.removes_eq_false (calm _ (hcalls event hevent))

theorem takesName_of_mem_changeCalls {inode : Inode} {path : Path} {changes : AttributeChanges}
    {c : Call} (h : c ∈ d.changeCalls inode path changes) : c.takesName = false := by
  obtain ⟨_, rfl⟩ | ⟨_, _, _, rfl⟩ | ⟨_, rfl⟩ | ⟨_, _, rfl⟩ := mem_changeCalls h <;> rfl

theorem serve_effect {req : Request} (h : Action.Does (serve req) d events out d') :
    d'.options = d.options ∧ Effect d req events out d'.inodes := by
  cases serve_conduct h with
  | refused bad => exact ⟨rfl, .quiet (forgotten_of_fault? bad) (by simp) rfl⟩
  | settled _ settles =>
    exact ⟨rfl, .quiet (forgotten_of_settledBy? settles) (by simp) (handed?_of_settledBy? settles)⟩
  | failed begins e =>
    exact ⟨rfl, .quiet begins.forgotten (by simp [Event.removes, Except.toBool]) rfl⟩
  | @found parent name path named stat =>
    have hasked : d.entryPath? (.lookup parent name) = some path := by
      rw [Dispatcher.entryPath?, named]
      rfl
    exact ⟨rfl, .handed hasked (by simp) List.mem_cons_self
      (congrArg some (d.entryReply_inode path stat))⟩
  | rejected _ tries =>
    exact ⟨rfl, .quiet rfl
      (calm_of_calls tries.call_mem fun _ hc => takesName_of_mem_changeCalls hc) rfl⟩
  | changed _ tries | untold _ tries =>
    refine ⟨rfl, .quiet rfl (List.forall_mem_append.2 ⟨?_, by simp⟩) rfl⟩
    exact calm_of_calls tries.call_mem fun _ hc => takesName_of_mem_changeCalls hc
  | @made _ c path begins makes answer stat =>
    have hcalm : c.takesName = false := by cases c <;> first | rfl | cases makes
    have hdescribed : (⟨.stat path, .ok stat⟩ : Event) ∈
        ([⟨c, .ok answer⟩, ⟨.stat path, .ok stat⟩] : List Event) := by simp
    exact ⟨rfl, .handed (begins.entryPath? makes) (by simp [hcalm]) hdescribed
      (congrArg some (d.entryReply_inode path stat))⟩
  | @unseen _ c path begins makes answer e =>
    have hcalm : c.takesName = false := by cases c <;> first | rfl | cases makes
    exact ⟨rfl, .quiet begins.forgotten (by simp [hcalm]) rfl⟩
  | @created parent name mode flags path file named stat =>
    have hasked : d.entryPath? (.create parent name mode flags) = some path := by
      rw [Dispatcher.entryPath?, named]
      rfl
    have hdescribed : (⟨.stat path, .ok stat⟩ : Event) ∈
        ([⟨.create path mode, .ok file.fd⟩, ⟨.stat path, .ok stat⟩] : List Event) := by simp
    exact ⟨rfl, .handed hasked (by simp [Event.removes, Call.takesName]) hdescribed
      (congrArg some (d.entryReply_inode path stat))⟩
  | removed begins removes =>
    cases begins with
    | unlink named =>
      cases removes
      exact ⟨rfl, .unlinked named⟩
    | rmdir named =>
      cases removes
      exact ⟨rfl, .rmdired named⟩
    | _ => cases removes
  | moved policy named renamed => exact ⟨rfl, .moved policy named renamed⟩
  | rebound policy named renamed => exact ⟨rfl, .rebound policy named renamed⟩
  | listed _ resolves listing =>
    refine ⟨rfl, .listed resolves ?_ List.mem_cons_self (fun name hname => ?_) rfl⟩
    · intro event hevent
      rcases List.mem_cons.1 hevent with rfl | hevent
      · rfl
      · obtain ⟨_, _, hp⟩ := listing.stats event hevent
        exact Event.removes_eq_false (by rw [hp]; rfl)
    · obtain ⟨hmem, stat, hstat⟩ := listing.described name hname
      exact ⟨hmem, stat, List.mem_cons_of_mem _ hstat⟩
  | forgot | forgotAll => exact ⟨rfl, .forgot⟩
  | destroyed closes =>
    refine ⟨rfl, .quiet rfl (fun event hevent => Event.removes_eq_false ?_) rfl⟩
    obtain ⟨fd, hfd⟩ := exists_close_of_mem closes event hevent
    rw [hfd]
    rfl
  | unheld => exact ⟨rfl, .quiet rfl (by simp) rfl⟩
  | _ => exact ⟨rfl, .quiet rfl (by simp [Event.removes, Call.takesName]) rfl⟩

end Serving

end Dispatcher
end InodeBridge
