import InodeBridge.Proofs.Dispatcher.Runs
import InodeBridge.Proofs.HandleTable
import InodeBridge.Proofs.Host.Calls
import InodeBridge.Proofs.Host.Creating
import InodeBridge.Proofs.InodeTable.Probing

/-! # The file behind a new handle

A create request opens a file first and then describes what is at the path.  The host follows a link at
the end of the path in the first of these calls and not in the second, so the entry and the handle are
of one file if no link is there, and of two objects if one is.
-/
namespace InodeBridge

open Storage (Call Event)
open Host (ObjectId)

namespace HostStorage

/-- A file that is opened or made and then described stays open under its descriptor, and is described
on the host as opening it has left it. -/
theorem opened_and_described {root path : Path} {mode : UInt32} {fd : Descriptor} {stat : Stat}
    {state state' : List (Option StorageError) × HostStorage}
    (hroom : state.2.files.size + 1 < UInt64.size)
    (h : (failing root).Answers state [⟨.create path mode, .ok fd⟩, ⟨.stat path, .ok stat⟩] state') :
    ∃ opened id object, state.2.host.openOrCreate path mode = .ok (opened, state'.2.host) ∧
      state'.2.files.get? fd = some ⟨opened, true⟩ ∧
      state'.2.host.lookup path = .ok (id, object) ∧ stat = statOf state'.2.host id object := by
  obtain ⟨mid, hopen, last, hstat, hlast⟩ := h
  obtain rfl : state' = last := hlast
  obtain ⟨opened, hmade, rfl, hfiles⟩ := register_eq_ok (answer_of_perform hopen)
  obtain ⟨hsame, id, object, hlookup, rfl⟩ := stat_eq_ok (answer_of_perform hstat)
  rw [← hsame] at hmade hfiles hlookup ⊢
  refine ⟨opened, id, object, hmade, ?_, hlookup, rfl⟩
  rw [hfiles]
  exact HandleTable.get?_insert_self (HandleTable.insert_ne_zero hroom)

end HostStorage

namespace Dispatcher

open HostStorage (failing)

/-- A create request that succeeds has opened and described one path, binds it, and keeps what was
opened. -/
theorem Service.Possible.created {r : Service} {parent : Inode} {name : Name} {mode : UInt32}
    {flags : Int32} {entry : EntryReply} {reply : OpenReply} (h : r.Possible)
    (hrequest : r.request = .create parent name mode flags)
    (houtcome : r.outcome = some (.created entry reply)) :
    ∃ path stat fd, r.before.childOf parent name = .ok path ∧
      r.events = [⟨.create path mode, .ok fd⟩, ⟨.stat path, .ok stat⟩] ∧
      entry = r.before.entryReply path stat ∧
      (entry.attributes.inode ≠ 0 →
        r.after.inodes.inodeOf? path = some entry.attributes.inode) ∧
      (r.before.handles.size + 1 < UInt64.size →
        r.after.handles.get? reply.handle = some ⟨entry.attributes.inode, fd, .readWrite⟩) := by
  obtain ⟨before, request, events, outcome, after⟩ := r
  dsimp only at hrequest houtcome ⊢
  subst hrequest
  have hconduct : Conduct before _ events outcome after := serve_conduct h
  rw [houtcome] at hconduct
  cases hconduct with
  | settled _ settles => cases settles
  | @created _ _ _ _ path file named stat inode writable =>
    obtain ⟨_, fd, _⟩ := file
    cases inode
    cases writable
    refine ⟨path, stat, fd, named, rfl, rfl, fun hbound => ?_, fun hroom => ?_⟩
    · rw [entryReply_inode] at hbound ⊢
      exact InodeTable.inodeOf?_insert_self hbound
    · exact HandleTable.get?_insert_self (HandleTable.insert_ne_zero hroom)

/-- While numbers are left to hand out, a create request that succeeds leaves the path of the name bound
to the inode of the entry.  The entry describes the object to which the path then leads with a link at
its end kept, which has the name in the directory to which the path of the parent leads.  The handle is
open on the object to which the path leads with all links followed.  These are one object if and only if
the entry is not that of a link, and then no other file was opened and nothing else was made. -/
theorem created_handle_opens_described_iff (d : Dispatcher) (root : Path)
    (state state' : List (Option StorageError) × HostStorage) (parent : Inode) (name : Name)
    (mode : UInt32) (flags : Int32) (r : Service) (entry : EntryReply) (reply : OpenReply)
    (ht : state.2.host.IsTree) (hhandles : d.handles.size + 1 < UInt64.size)
    (hfiles : state.2.files.size + 1 < UInt64.size)
    (hserved : serveOver (failing root) d state (.create parent name mode flags) = (r, state'))
    (hcreated : r.outcome = some (.created entry reply)) :
    let before := state.2.host
    let after := state'.2.host
    ∃ above path fd id object opened directory slashed,
      (d.inodes.resolve? parent = some above ∧ path = above.child name ∧
        (entry.attributes.inode ≠ 0 →
          r.after.inodes.inodeOf? path = some entry.attributes.inode)) ∧
      (after.lookup path = .ok (id, object) ∧
        entry = d.entryReply path (HostStorage.statOf after id object) ∧
        after.place path = .ok ⟨directory, .entry name, false⟩ ∧
        (above.bytes ≠ [] → after.find .follow above = .ok directory) ∧
        after.entry? directory name = some id) ∧
      (r.after.handles.get? reply.handle = some ⟨entry.attributes.inode, fd, .readWrite⟩ ∧
        state'.2.files.get? fd = some ⟨opened, true⟩ ∧
        after.locate .create path = .ok (.found opened, slashed)) ∧
      (opened = id ↔ entry.attributes.kind ≠ .symlink) ∧
      (entry.attributes.kind ≠ .symlink → after = before ∨
        after = (before.add directory name (.file .empty) (before.permitted 0o7777 mode)).2) := by
  intro before after
  have hpossible := serveOver_possible (failing root) d state (.create parent name mode flags)
  have hanswers := serveOver_answers (failing root) d state (.create parent name mode flags)
  have hbefore : r.before = d := (congrArg (·.1.before) hserved).symm
  have hrequest : r.request = .create parent name mode flags := (congrArg (·.1.request) hserved).symm
  rw [hserved] at hpossible hanswers
  obtain ⟨path, stat, fd, hpath, hevents, hentry, hbound, hheld⟩ :=
    hpossible.created hrequest hcreated
  rw [hbefore] at hpath hentry hheld
  rw [hevents] at hanswers
  obtain ⟨opened, id, object, hmade, hfile, hlookup, rfl⟩ :=
    HostStorage.opened_and_described hfiles hanswers
  obtain ⟨hname, above, habove, rfl⟩ := childOf_eq_ok_iff.1 hpath
  obtain ⟨⟨slashed, hlocate⟩, _⟩ := Host.locate_of_openOrCreate ht hmade
  obtain ⟨directory, hplace, hfound, hnamed, hnothing⟩ :=
    Host.opened_in_directory ht hname hmade hlookup
  have hkind : entry.attributes.kind = object.node.kind := by
    rw [hentry, entryReply, attributes_eq]
    rfl
  have hone : opened = id ↔ entry.attributes.kind ≠ .symlink :=
    hkind ▸ Host.opened_eq_described_iff ht hmade hlookup
  exact ⟨above, above.child name, fd, id, object, opened, directory, slashed, ⟨habove, rfl, hbound⟩,
    ⟨hlookup, hentry, hplace, hfound, hnamed⟩, ⟨hheld hhandles, hfile, hlocate⟩, hone,
    fun hplain => hnothing (hone.2 hplain)⟩

/-- A link leads to a name that is not there.  Creating a file at the link makes the file at that name
and opens it, and the reply describes the link. -/
theorem link_described_file_opened :
    let root : Path := ⟨[slash]⟩
    let host := ((Host.fresh 0 .epoch .fallback).add 0 [0x6c] (.symlink [0x74]) 0o777).2
    let d := start (fun _ salt => salt + 2) {} root
    let state : List (Option StorageError) × HostStorage := ([], HostStorage.new host)
    let served := serveOver (failing root) d state (.create rootInode [0x6c] 0o644 0)
    let after := served.2.2
    (∃ (entry : EntryReply) (reply : OpenReply) (fd : Descriptor) (id opened : ObjectId)
      (object : Host.Object), served.1.outcome = some (.created entry reply) ∧
      entry.attributes.kind = .symlink ∧
      after.host.lookup (root.child [0x6c]) = .ok (id, object) ∧
      served.1.after.handles.get? reply.handle = some ⟨entry.attributes.inode, fd, .readWrite⟩ ∧
      after.files.get? fd = some ⟨opened, true⟩ ∧ opened ≠ id) ∧
    host.entry? 0 [0x74] = none ∧ after.host.entry? 0 [0x74] = some 2 ∧
      after.files.get? 1 = some ⟨2, true⟩ := by
  intro root host d state served after
  let entry : EntryReply :=
    ⟨⟨⟨.symlink, 1, 1, .epoch, .epoch, .epoch, 0o777, 1, ⟨0, 0⟩, 0, 4096⟩, 2⟩, 1, .zero, .zero⟩
  have ht : host.IsTree :=
    (Host.grows_add (Host.isTree_fresh _ _ _) _ (by decide) (by decide) (by decide) (by simp)).tree
      (Host.isTree_fresh _ _ _)
  have hcreated : served.1.outcome = some (.created entry ⟨1, 0⟩) := by decide +kernel
  have helsewhere : after.host.entry? 0 [0x74] = some 2 ∧ after.files.get? 1 = some ⟨2, true⟩ := by
    decide +kernel
  have hroot : d.inodes.resolve? rootInode = some root := by decide +kernel
  have hserved : serveOver (failing root) d state (.create rootInode [0x6c] 0o644 0) = served := rfl
  clear_value served
  obtain ⟨above, path, fd, id, object, opened, _, _, ⟨habove, hpath, _⟩, ⟨hlookup, _⟩,
    ⟨hheld, hfile, _⟩, hone, _⟩ := created_handle_opens_described_iff d root state served.2 rootInode
      [0x6c] 0o644 0 served.1 entry ⟨1, 0⟩ ht (by decide +kernel) (by decide +kernel) hserved hcreated
  rw [hpath, Option.some.inj (habove.symm.trans hroot)] at hlookup
  exact ⟨⟨entry, ⟨1, 0⟩, fd, id, opened, object, hcreated, rfl, hlookup, hheld, hfile,
    fun heq => hone.1 heq rfl⟩, by decide +kernel, helsewhere⟩

end Dispatcher
end InodeBridge
