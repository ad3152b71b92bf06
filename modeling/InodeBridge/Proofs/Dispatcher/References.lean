import InodeBridge.Proofs.Dispatcher.Runs
import InodeBridge.Proofs.InodeTable.References

/-! # References of the kernel over whole histories

An inode resolves as long as fewer references to it were returned than handed out, counted since its
path was last taken away by a removal or a rename.  References from before that count for nothing, but
returning them late is counted all the same.
-/
namespace InodeBridge.Dispatcher

open Storage (Call Event)

def returnedIn (i : Inode) : List (Inode × UInt64) → Nat
  | [] => 0
  | (j, n) :: nodes => (if j = i then n.toNat else 0) + returnedIn i nodes

theorem returnedIn_of_not_mem {i : Inode} {nodes : List (Inode × UInt64)}
    (h : i ∉ nodes.map Prod.fst) : returnedIn i nodes = 0 := by
  induction nodes with
  | nil => rfl
  | cons node nodes ih =>
    obtain ⟨j, n⟩ := node
    rw [List.map_cons, List.mem_cons, not_or] at h
    rw [returnedIn, if_neg (Ne.symm h.1), ih h.2]

namespace Service

variable (r : Service) (i : Inode)

def handed : Nat := if r.outcome.bind Outcome.handed? = some i then 1 else 0

def returned : Nat := returnedIn i r.request.forgotten

def Removes (path : Path) : Prop :=
  (⟨.unlink path, .ok ()⟩ : Event) ∈ r.events ∨ (⟨.rmdir path, .ok ()⟩ : Event) ∈ r.events

def Renames (source target : Path) : Prop :=
  (⟨.rename source target, .ok ()⟩ : Event) ∈ r.events

/-- Whether the path of an inode was taken away: by the removal of its entry, or by a rename that put
something else in its place. -/
def Takes : Prop :=
  (∃ path, r.Removes path ∧ r.before.inodes.inodeOf? path = some i) ∨
    ∃ source target, r.Renames source target ∧
      ((r.before.options.renamePolicy = .move ∧ r.before.inodes.Displaces source target i) ∨
        r.before.options.renamePolicy = .rebind ∧ r.before.inodes.inodeOf? target = some i)

/-- Whether the paths of moved inodes were those of a rename that a host makes. -/
def RenamesApart : Prop :=
  r.before.options.renamePolicy = .move →
    ∀ source target, r.Renames source target → source.Renamable target

/-- Whether an inode may have been bound without being handed to the kernel, by a listing or by a
rename that binds its target afresh, and is bound since. -/
def Lists : Prop :=
  ((∃ inode handle offset budget, r.request = .readdir inode handle offset budget) ∨
    ∃ parent name newParent newName, r.request = .rename parent name newParent newName) ∧
  (r.after.inodes.resolve? i).isSome

end Service

section Tables

variable {t : InodeTable} {i : Inode}

open InodeTable

theorem held_forget (hroot : i ≠ rootInode) (j : Inode) (n : Nat) :
    (t.forget j n).2.held i = t.held i - if j = i then n else 0 := by
  by_cases hj : j = i
  · subst hj
    rw [held, lookups?_forget hroot, if_pos rfl]
    split
    · rfl
    next h => simp; omega
  · rw [held, lookups?_forget_of_ne (Ne.symm hj), if_neg hj]
    rfl

theorem held_forgetAll (hroot : i ≠ rootInode) (nodes : List (Inode × UInt64)) :
    (forgetAll nodes t).held i = t.held i - returnedIn i nodes := by
  induction nodes generalizing t with
  | nil => rfl
  | cons node nodes ih =>
    obtain ⟨j, n⟩ := node
    rw [forgetAll, ih, held_forget hroot, returnedIn]
    omega

theorem lookups?_forgetAll_of_not_mem {nodes : List (Inode × UInt64)}
    (h : i ∉ nodes.map Prod.fst) : (forgetAll nodes t).lookups? i = t.lookups? i := by
  induction nodes generalizing t with
  | nil => rfl
  | cons node nodes ih =>
    obtain ⟨j, n⟩ := node
    rw [List.map_cons, List.mem_cons, not_or] at h
    rw [forgetAll, ih h.2, lookups?_forget_of_ne h.1]

/-- An inode that is still bound after references to it were returned has some left. -/
theorem held_forgetAll_pos (hroot : i ≠ rootInode) {nodes : List (Inode × UInt64)}
    (hmem : i ∈ nodes.map Prod.fst) (hbound : ((forgetAll nodes t).lookups? i).isSome) :
    0 < (forgetAll nodes t).held i := by
  induction nodes generalizing t with
  | nil => simp at hmem
  | cons node nodes ih =>
    obtain ⟨j, n⟩ := node
    rw [forgetAll] at hbound ⊢
    by_cases hlater : i ∈ nodes.map Prod.fst
    · exact ih hlater hbound
    · obtain rfl : i = j := by simpa [hlater] using hmem
      rw [lookups?_forgetAll_of_not_mem hlater, lookups?_forget hroot] at hbound
      rw [held, lookups?_forgetAll_of_not_mem hlater, lookups?_forget hroot]
      split at hbound
      next hleft => simp [hleft]
      · simp at hbound

theorem consistent_forgetAll (h : t.Consistent) (nodes : List (Inode × UInt64)) :
    (forgetAll nodes t).Consistent := by
  induction nodes generalizing t with
  | nil => exact h
  | cons node nodes ih => exact ih (h.forget node.1 node.2.toNat)

theorem consistent_bindingAbove (h : t.Consistent) (inode : Inode) (directory : Path) :
    (bindingAbove inode directory t).2.Consistent := by
  unfold bindingAbove
  split
  · exact h
  · exact h.insert _ 0

theorem consistent_bindingAll (h : t.Consistent) (directory : Path) (names : List Name) :
    (bindingAll directory names t).Consistent := by
  induction names generalizing t with
  | nil => exact h
  | cons name names ih => exact ih (h.insert _ 0)

/-- Binding without a reference leaves the references of an inode as they are, and drops none. -/
theorem held_bind (h : t.Consistent) (hi : i ≠ 0) (path : Path) :
    (t.bind path).2.held i = t.held i ∧
      ((t.lookups? i).isSome → ((t.bind path).2.lookups? i).isSome) := by
  rw [held, InodeTable.bind, lookups?_insert h hi]
  split
  · exact ⟨rfl, fun _ => rfl⟩
  · exact ⟨rfl, id⟩

theorem held_bindingAll (h : t.Consistent) (hi : i ≠ 0) (directory : Path) (names : List Name) :
    (bindingAll directory names t).held i = t.held i ∧
      ((t.lookups? i).isSome → ((bindingAll directory names t).lookups? i).isSome) := by
  induction names generalizing t with
  | nil => exact ⟨rfl, id⟩
  | cons name names ih =>
    obtain ⟨hheld, hkept⟩ := held_bind h hi (directory.child name)
    obtain ⟨hrest, hkeptRest⟩ := ih (h.insert (directory.child name) 0)
    exact ⟨hrest.trans hheld, fun hb => hkeptRest (hkept hb)⟩

theorem held_bindingAbove (h : t.Consistent) (hi : i ≠ 0) (inode : Inode) (directory : Path) :
    (bindingAbove inode directory t).2.held i = t.held i ∧
      ((t.lookups? i).isSome → ((bindingAbove inode directory t).2.lookups? i).isSome) := by
  unfold bindingAbove
  split
  · exact ⟨rfl, id⟩
  · exact held_bind h hi _

end Tables

structure Service.Accounts (r : Service) (i : Inode) : Prop where
  taken : r.Takes i → r.after.inodes.held i = 0
  counted : ¬ r.Takes i →
    r.after.inodes.held i = r.before.inodes.held i + r.handed i - r.returned i
  kept : ¬ r.Takes i → i ∉ r.request.forgotten.map Prod.fst →
    (r.before.inodes.lookups? i).isSome → (r.after.inodes.lookups? i).isSome
  /-- An inode bound without a reference was listed, or was so before and left alone. -/
  unreferenced : (r.after.inodes.lookups? i).isSome → r.after.inodes.held i = 0 →
    r.Lists i ∨ ¬ r.Takes i ∧ i ∉ r.request.forgotten.map Prod.fst ∧
      (r.before.inodes.lookups? i).isSome

section Accounts

variable {r : Service} {i : Inode}

open InodeTable

theorem not_takes_of_calm (calm : ∀ event ∈ r.events, event.removes = false) : ¬ r.Takes i := by
  rintro (⟨path, hr | hr, _⟩ | ⟨source, target, hr, _⟩)
  all_goals simpa [Event.removes, Call.takesName, Except.toBool] using calm _ hr

theorem returned_eq_zero (h : r.request.forgotten = []) : r.returned i = 0 := by
  rw [Service.returned, h]
  rfl

/-- A service that removes nothing, returns nothing, and leaves an inode bound as it was. -/
theorem Service.Accounts.of_calm (calm : ∀ event ∈ r.events, event.removes = false)
    (keeps : r.request.forgotten = [])
    (counts : r.after.inodes.held i = r.before.inodes.held i + r.handed i)
    (stays : (r.before.inodes.lookups? i).isSome → (r.after.inodes.lookups? i).isSome)
    (comes : (r.after.inodes.lookups? i).isSome → r.after.inodes.held i = 0 →
      r.Lists i ∨ (r.before.inodes.lookups? i).isSome) : r.Accounts i where
  taken h := absurd h (not_takes_of_calm calm)
  counted _ := by rw [counts, returned_eq_zero keeps, Nat.sub_zero]
  kept _ _ := stays
  unreferenced hbound hheld := (comes hbound hheld).imp_right fun h =>
    ⟨not_takes_of_calm calm, by simp [keeps], h⟩

theorem handed_eq_zero (h : r.outcome.bind Outcome.handed? = none) : r.handed i = 0 := by
  rw [Service.handed, h]
  simp

/-- A service that drops an inode if it takes its path, and otherwise leaves it as it is. -/
theorem Service.Accounts.of_dropping (keeps : r.request.forgotten = [])
    (unhanded : r.outcome.bind Outcome.handed? = none)
    (drops : r.Takes i → r.after.inodes.lookups? i = none)
    (spares : ¬ r.Takes i → r.after.inodes.lookups? i = r.before.inodes.lookups? i) :
    r.Accounts i where
  taken h := by rw [held, drops h]; rfl
  counted h := by
    rw [held, spares h, handed_eq_zero unhanded, returned_eq_zero keeps]
    rfl
  kept h _ hbound := by rwa [spares h]
  unreferenced hbound _ := by
    refine .inr ?_
    have htakes : ¬ r.Takes i := fun h => by simp [drops h] at hbound
    exact ⟨htakes, by simp [keeps], by rwa [spares htakes] at hbound⟩

theorem takes_iff_of_removed {path : Path}
    (h : r.events = [⟨.unlink path, .ok ()⟩] ∨ r.events = [⟨.rmdir path, .ok ()⟩]) :
    r.Takes i ↔ r.before.inodes.inodeOf? path = some i := by
  have hremoves : ∀ p, r.Removes p ↔ p = path := by
    intro p
    rcases h with h | h <;> simp [Service.Removes, h] <;> rintro rfl <;> rfl
  have hrenames : ∀ p q, ¬ r.Renames p q := by
    intro p q
    rcases h with h | h <;> simp [Service.Renames, h]
  simp [Service.Takes, hremoves, hrenames]

theorem takes_iff_of_renamed {source target : Path}
    (h : r.events = [⟨.rename source target, .ok ()⟩]) :
    r.Takes i ↔
      (r.before.options.renamePolicy = .move ∧ r.before.inodes.Displaces source target i) ∨
        r.before.options.renamePolicy = .rebind ∧ r.before.inodes.inodeOf? target = some i := by
  have hremoves : ∀ p, ¬ r.Removes p := by
    intro p
    simp [Service.Removes, h]
  have hrenames : ∀ p q, r.Renames p q ↔ p = source ∧ q = target := by
    intro p q
    simp only [Service.Renames, h, List.mem_singleton, Event.mk.injEq,
      Storage.Call.rename.injEq]
    exact and_iff_left_of_imp (by rintro ⟨rfl, rfl⟩; rfl)
  constructor
  · rintro (⟨p, hp, _⟩ | ⟨p, q, hpq, hrename⟩)
    · exact absurd hp (hremoves p)
    · obtain ⟨rfl, rfl⟩ := (hrenames p q).1 hpq
      exact hrename
  · exact fun hrename => .inr ⟨source, target, (hrenames _ _).2 ⟨rfl, rfl⟩, hrename⟩

theorem Service.Accounts.of_removed {path : Path} (hroot : i ≠ rootInode)
    (keeps : r.request.forgotten = []) (unhanded : r.outcome.bind Outcome.handed? = none)
    (hevents : r.events = [⟨.unlink path, .ok ()⟩] ∨ r.events = [⟨.rmdir path, .ok ()⟩])
    (hafter : r.after.inodes = (r.before.inodes.unbindPath path).2) : r.Accounts i := by
  refine .of_dropping keeps unhanded ?_ ?_
  · intro htakes
    rw [hafter, lookups?_unbindPath hroot, if_pos ((takes_iff_of_removed hevents).1 htakes)]
  · intro htakes
    rw [hafter, lookups?_unbindPath hroot, if_neg (mt (takes_iff_of_removed hevents).2 htakes)]

/-- A reply that hands an inode to the kernel adds one reference to that inode alone. -/
theorem Service.Accounts.of_handed {path : Path} (hc : r.before.inodes.Consistent) (hi : i ≠ 0)
    (keeps : r.request.forgotten = []) (calm : ∀ event ∈ r.events, event.removes = false)
    (hands : r.outcome.bind Outcome.handed? = some (r.before.inodes.bindLookup path).1)
    (hafter : r.after.inodes = (r.before.inodes.bindLookup path).2) : r.Accounts i := by
  have hlookups := lookups?_insert hc hi path 1
  have hhanded : r.handed i = if (r.before.inodes.bindLookup path).1 = i then 1 else 0 := by
    simp [Service.handed, hands]
  rw [← InodeTable.bindLookup, ← hafter] at hlookups
  by_cases hin : (r.before.inodes.bindLookup path).1 = i
  · rw [if_pos hin] at hlookups hhanded
    refine .of_calm calm keeps ?_ ?_ ?_
    · rw [hhanded, held, hlookups]
      rfl
    · exact fun _ => by rw [hlookups]; rfl
    · intro _ hzero
      rw [held, hlookups] at hzero
      simp at hzero
  · rw [if_neg hin] at hlookups hhanded
    refine .of_calm calm keeps ?_ ?_ ?_
    · rw [hhanded, held, hlookups]
      rfl
    · exact fun hbound => hlookups ▸ hbound
    · exact fun hbound _ => .inr (hlookups ▸ hbound)

/-- The return of references takes from each inode what is returned for it. -/
theorem Service.Accounts.of_forgotten (hroot : i ≠ rootInode)
    (calm : ∀ event ∈ r.events, event.removes = false)
    (unhanded : r.outcome.bind Outcome.handed? = none)
    (hafter : r.after.inodes = forgetAll r.request.forgotten r.before.inodes) : r.Accounts i := by
  have hspared : ¬ r.Takes i := not_takes_of_calm calm
  refine ⟨fun htakes => absurd htakes hspared, fun _ => ?_, fun _ hmem hbound => ?_,
    fun hbound hzero => .inr ?_⟩
  · rw [handed_eq_zero unhanded, hafter]
    exact held_forgetAll hroot r.request.forgotten
  · rw [hafter, lookups?_forgetAll_of_not_mem hmem]
    exact hbound
  · rw [hafter] at hbound hzero
    have hmem : i ∉ r.request.forgotten.map Prod.fst := fun hmem =>
      absurd hzero (Nat.ne_of_gt (held_forgetAll_pos hroot hmem hbound))
    rw [lookups?_forgetAll_of_not_mem hmem] at hbound
    exact ⟨hspared, hmem, hbound⟩

theorem Service.Accounts.of_moved {source target : Path} (hc : r.before.inodes.Consistent)
    (hrenamable : source.Renamable target)
    (hroot : i ≠ rootInode) (keeps : r.request.forgotten = [])
    (unhanded : r.outcome.bind Outcome.handed? = none)
    (policy : r.before.options.renamePolicy = .move)
    (hevents : r.events = [⟨.rename source target, .ok ()⟩])
    (hafter : r.after.inodes = (r.before.inodes.rename source target).2) : r.Accounts i := by
  have htakes : r.Takes i ↔ r.before.inodes.Displaces source target i := by
    simp [takes_iff_of_renamed hevents, policy]
  refine .of_dropping keeps unhanded ?_ ?_
  · intro h
    rw [hafter]
    exact lookups?_rename_of_displaces hc hrenamable hroot (htakes.1 h)
  · intro h
    rw [hafter]
    exact lookups?_rename_of_not_displaces hc hrenamable (mt htakes.2 h)

/-- A rename that binds the path it leads to afresh drops what was bound to it. -/
theorem Service.Accounts.of_rebound {parent newParent : Inode} {name newName : Name}
    {source target : Path} (hc : r.before.inodes.Consistent) (hi : i ≠ 0) (hroot : i ≠ rootInode)
    (renames : r.request = .rename parent name newParent newName)
    (unhanded : r.outcome.bind Outcome.handed? = none)
    (policy : r.before.options.renamePolicy = .rebind)
    (hevents : r.events = [⟨.rename source target, .ok ()⟩])
    (hafter : r.after.inodes = ((r.before.inodes.unbindPath target).2.bind target).2) :
    r.Accounts i := by
  have hunbound := lookups?_unbindPath (t := r.before.inodes) hroot target
  have hbind := held_bind (hc.unbindPath target) hi target
  rw [← hafter] at hbind
  have htakes : r.Takes i ↔ r.before.inodes.inodeOf? target = some i := by
    simp [takes_iff_of_renamed hevents, policy]
  refine ⟨fun h => ?_, fun h => ?_, fun h _ hbound => ?_, fun hbound _ => .inl ?_⟩
  · rw [if_pos (htakes.1 h)] at hunbound
    rw [hbind.1, held, hunbound]
    rfl
  · have hreturned : r.returned i = 0 := returned_eq_zero (by rw [renames]; rfl)
    rw [if_neg (mt htakes.2 h)] at hunbound
    rw [hbind.1, held, hunbound, handed_eq_zero unhanded, hreturned]
    rfl
  · rw [if_neg (mt htakes.2 h)] at hunbound
    exact hbind.2 (hunbound ▸ hbound)
  · exact ⟨.inr ⟨parent, name, newParent, newName, renames⟩, by rwa [resolve?_isSome]⟩

/-- Every service keeps account of the references to every inode but the root. -/
theorem Service.Possible.accounts (h : r.Possible) (hc : r.before.inodes.Consistent)
    (hrenames : r.RenamesApart) (hi : i ≠ 0) (hroot : i ≠ rootInode) : r.Accounts i := by
  obtain ⟨before, request, events, outcome, after⟩ := r
  obtain ⟨_, heffect⟩ := serve_effect h
  dsimp only at heffect hc
  generalize hafter : after.inodes = t at heffect
  cases heffect with
  | quiet keeps calm unhanded =>
    refine .of_calm calm keeps ?_ ?_ ?_
    · rw [handed_eq_zero unhanded, hafter]
      rfl
    · exact fun hbound => hafter ▸ hbound
    · exact fun hbound _ => .inr (hafter ▸ hbound)
  | handed asked calm described hands =>
    exact .of_handed hc hi (forgotten_of_entryPath? asked) calm hands hafter
  | @listed inode handle offset budget _ _ path names bound resolves calm lists described unhanded =>
    have habove := held_bindingAbove hc hi inode path
    have hall := held_bindingAll (consistent_bindingAbove hc inode path) hi path bound
    rw [← hafter] at hall
    refine .of_calm calm rfl ?_ (fun hbound => hall.2 (habove.2 hbound)) fun hbound _ => .inl ?_
    · rw [handed_eq_zero unhanded]
      exact hall.1.trans habove.1
    · exact ⟨.inl ⟨inode, handle, offset, budget, rfl⟩, by rwa [resolve?_isSome]⟩
  | forgot => exact .of_forgotten hroot (by simp) rfl hafter
  | unlinked named => exact .of_removed hroot rfl rfl (.inl rfl) hafter
  | rmdired named => exact .of_removed hroot rfl rfl (.inr rfl) hafter
  | @moved parent newParent name newName source target policy named renamed =>
    have hrenamable := hrenames policy source target (List.mem_singleton_self _)
    exact .of_moved hc hrenamable hroot rfl rfl policy rfl hafter
  | rebound policy named renamed => exact .of_rebound hc hi hroot rfl rfl policy rfl hafter

end Accounts

end InodeBridge.Dispatcher
