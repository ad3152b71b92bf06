import InodeBridge.HostStorage
import InodeBridge.Proofs.Dispatcher.Runs
import InodeBridge.Proofs.Dispatcher.Serving

/-! # Bad operands never reach storage

A request about names needs some operands: inodes that are bound, names that entries can have, an offset
to start from.  They are checked one after the other, before the first call.  The first bad one decides
the answer, and if all are good the request goes to storage, but for one that opens a directory.
-/
namespace InodeBridge

open Storage (Call Event)

inductive Operand where
  | inode (inode : Inode)
  | name (name : Name)
  | offset (offset : Int64)
  deriving DecidableEq, Repr

namespace Operand

/-- Whether an operand is one that no request can be served with: an inode that is not bound, a name
that no entry can have, an offset before the start. -/
def Bad (t : InodeTable) : Operand → Prop
  | .inode i => t.resolve? i = none
  | .name n => n = [] ∨ slash ∈ n ∨ n = Name.here ∨ n = Name.above
  | .offset position => position < 0

instance (t : InodeTable) : DecidablePred (Bad t)
  | .inode i => inferInstanceAs (Decidable (t.resolve? i = none))
  | .name n => inferInstanceAs (Decidable (n = [] ∨ slash ∈ n ∨ _))
  | .offset position => inferInstanceAs (Decidable (position < 0))

def fault : Operand → RequestError
  | .inode i => .unknownInode i
  | .name n => .badName n
  | .offset position => .badOffset position

def errno : Operand → Errno
  | .inode _ => Errno.noEntry
  | .name _ | .offset _ => Errno.invalid

theorem errno_fault (operand : Operand) : operand.fault.errno = operand.errno := by
  cases operand <;> rfl

theorem bad_name_iff {t : InodeTable} {n : Name} : (Operand.name n).Bad t ↔ n.isEntry = false := by
  rw [Name.isEntry, Bool.not_eq_false']
  simp [Bad, or_assoc]

end Operand

/-- The operands of a request about names, in the order in which they are checked. -/
def Request.operands : Request → List Operand
  | .lookup parent name =>
    if name = Name.here ∨ name = Name.above then [.inode parent] else [.name name, .inode parent]
  | .getattr inode | .setattr inode _ | .readlink inode | .open inode _ | .opendir inode _ =>
    [.inode inode]
  | .mkdir parent name _ | .create parent name _ _ | .unlink parent name | .rmdir parent name
  | .symlink parent name _ => [.name name, .inode parent]
  | .rename parent name newParent newName =>
    [.name name, .inode parent, .name newName, .inode newParent]
  | .link inode newParent newName => [.inode inode, .name newName, .inode newParent]
  | .readdir inode _ offset _ => [.offset offset, .inode inode]
  | _ => []

/-- Whether a request asks for a directory to be opened, which takes no call. -/
def Request.opensDirectory : Request → Bool
  | .opendir .. => true
  | _ => false

def InodeTable.firstBad? (t : InodeTable) (operands : List Operand) : Option Operand :=
  operands.find? (·.Bad t)

namespace Dispatcher

variable {d d' : Dispatcher} {req : Request} {events : List Event} {out : Option Outcome}

section Faults

theorem faultOf_map {α β : Type} (f : α → β) (value : Except RequestError α) :
    faultOf (value.map f) = faultOf value := by
  cases value <;> rfl

theorem faultOf_pathOf (inode : Inode) :
    faultOf (d.pathOf inode) = (d.inodes.firstBad? [.inode inode]).map Operand.fault := by
  rw [pathOf, InodeTable.firstBad?, List.find?_singleton]
  cases h : d.inodes.resolve? inode <;> simp [Operand.Bad, h, faultOf, Operand.fault]

theorem faultOf_childOf (parent : Inode) (name : Name) :
    faultOf (d.childOf parent name) =
      (d.inodes.firstBad? [.name name, .inode parent]).map Operand.fault := by
  rw [childOf, InodeTable.firstBad?, List.find?_cons]
  cases h : name.isEntry with
  | false =>
    rw [decide_eq_true (Operand.bad_name_iff.2 h)]
    rfl
  | true =>
    rw [decide_eq_false (mt Operand.bad_name_iff.1 (by simp [h])), if_pos rfl, faultOf_map]
    exact faultOf_pathOf parent

theorem faultOf_lookupOf (parent : Inode) (name : Name) :
    faultOf (d.lookupOf parent name) =
      (d.inodes.firstBad? (Request.lookup parent name).operands).map Operand.fault := by
  rw [lookupOf, Request.operands]
  by_cases hhere : name = Name.here
  · rw [if_pos hhere, if_pos (.inl hhere), faultOf_pathOf]
  · by_cases habove : name = Name.above
    · rw [if_neg hhere, if_pos habove, if_pos (.inr habove), faultOf_map, faultOf_pathOf]
    · rw [if_neg hhere, if_neg habove, if_neg (not_or_intro hhere habove), faultOf_childOf]

theorem faultOf_positionOf (t : InodeTable) (offset : Int64) :
    faultOf (positionOf offset) = (t.firstBad? [.offset offset]).map Operand.fault := by
  rw [positionOf, InodeTable.firstBad?, List.find?_singleton]
  by_cases h : offset < 0 <;> simp [Operand.Bad, h, faultOf, Operand.fault]

theorem firstBad?_append (t : InodeTable) (first rest : List Operand) :
    (t.firstBad? (first ++ rest)).map Operand.fault =
      ((t.firstBad? first).map Operand.fault).or ((t.firstBad? rest).map Operand.fault) := by
  rw [InodeTable.firstBad?, List.find?_append, Option.map_or]
  rfl

theorem fault?_eq_firstBad? (needs : req.operands ≠ []) :
    d.fault? req = (d.inodes.firstBad? req.operands).map Operand.fault := by
  cases req with
  | lookup parent name => exact faultOf_lookupOf parent name
  | getattr inode | setattr inode | readlink inode | «open» inode | opendir inode =>
    exact faultOf_pathOf inode
  | mkdir parent name | create parent name | unlink parent name | rmdir parent name
  | symlink parent name => exact faultOf_childOf parent name
  | rename parent name newParent newName =>
    rw [fault?, faultOf_childOf, faultOf_childOf]
    exact (firstBad?_append _ [.name name, .inode parent] _).symm
  | link inode newParent newName =>
    rw [fault?, faultOf_pathOf, faultOf_childOf]
    exact (firstBad?_append _ [.inode inode] _).symm
  | readdir inode handle offset budget =>
    rw [fault?, faultOf_positionOf d.inodes, faultOf_pathOf]
    exact (firstBad?_append _ [.offset offset] _).symm
  | _ => exact absurd rfl needs

end Faults

/-- Opening a directory makes no call and succeeds with the handle that stands for none. -/
theorem Conduct.opens_directory {inode : Inode} {flags : Int32}
    (h : Conduct d (.opendir inode flags) events out d')
    (good : d.fault? (.opendir inode flags) = none) :
    events = [] ∧ out = some (.opened ⟨0, 0⟩) := by
  cases h with
  | refused bad =>
    rw [good] at bad
    cases bad
  | settled _ settles =>
    cases settles
    exact ⟨rfl, rfl⟩
  | failed begins | made begins | unseen begins | removed begins => cases begins

theorem Conduct.events_ne_nil (h : Conduct d req events out d') (needs : req.operands ≠ [])
    (file : req.opensDirectory = false) (good : d.fault? req = none) : events ≠ [] := by
  cases h with
  | refused bad =>
    rw [good] at bad
    cases bad
  | settled _ settles =>
    cases req with
    | init | mknod | flush | fsync | releasedir | fsyncdir | access | setxattr | getxattr | listxattr
    | removexattr | getlk | setlk | bmap => exact absurd rfl needs
    | opendir => cases file
    | _ => cases settles
  | rejected _ tries => exact tries.events_ne_nil
  | unheld | forgot | forgotAll | destroyed => exact absurd rfl needs
  | changed | untold => exact List.append_ne_nil_of_right_ne_nil _ (List.cons_ne_nil _ _)
  | _ => exact List.cons_ne_nil _ _

/-- A request about names is refused for the first bad one of its operands, with no call made and
nothing changed.  If all are good it makes a call; opening a directory makes none, but succeeds. -/
theorem bad_operands_never_reach_storage {σ : Type} (s : Storage σ) (d : Dispatcher) (state : σ)
    (req : Request) (needs : req.operands ≠ []) :
    let served := serveOver s d state req
    match d.inodes.firstBad? req.operands with
    | some operand => served.1.events = [] ∧ served.1.outcome = some (.error operand.errno) ∧
        served.1.after = d ∧ served.2 = state
    | none =>
      if req.opensDirectory then served.1.events = [] ∧ served.1.outcome = some (.opened ⟨0, 0⟩)
      else served.1.events ≠ [] := by
  intro served
  have hconduct : Conduct d req served.1.events served.1.outcome served.1.after :=
    serve_conduct (serveOver_possible s d state req)
  have hfault := d.fault?_eq_firstBad? needs
  cases hbad : d.inodes.firstBad? req.operands with
  | some operand =>
    rw [hbad, Option.map_some] at hfault
    obtain ⟨hevents, hout, hafter⟩ := hconduct.refused_of_fault? hfault
    have hanswers := serveOver_answers s d state req
    rw [hevents] at hanswers
    exact ⟨hevents, by rw [hout, operand.errno_fault], hafter, hanswers⟩
  | none =>
    rw [hbad, Option.map_none] at hfault
    cases hfile : req.opensDirectory with
    | true =>
      cases req with
      | opendir => exact hconduct.opens_directory hfault
      | _ => cases hfile
    | false => exact hconduct.events_ne_nil needs hfile hfault

/-- The directory to rename from is not bound and the new name is none: the directory counts, since it
is checked first. -/
theorem rename_refused_for_directory :
    let storage := HostStorage.serving ⟨[slash]⟩
    let state := HostStorage.new (Host.fresh 0 .epoch .fallback)
    let d := start (fun _ salt => salt + 2) {} ⟨[slash]⟩
    let req : Request := .rename 7 [0x61] rootInode [0x61, slash]
    let served := serveOver storage d state req
    req.operands ≠ [] ∧ (Operand.name [0x61, slash]).Bad d.inodes ∧ served.1.events = [] ∧
      served.1.outcome = some (.error Errno.noEntry) ∧ served.1.after = d ∧ served.2 = state := by
  intro storage state d req served
  have hneeds : req.operands ≠ [] := by decide
  have hrefused := bad_operands_never_reach_storage storage d state req hneeds
  rw [show d.inodes.firstBad? req.operands = some (.inode 7) by decide +kernel] at hrefused
  exact ⟨hneeds, by decide, hrefused⟩

end Dispatcher
end InodeBridge
