import InodeBridge.Proofs.Host.Calls
import InodeBridge.Proofs.InodeTable.Resolving

/-! # The objects for which inodes stand

A table fits a host if every path that it binds names an object.  Each way in which a request changes
the table goes with a change of the host, and the two together keep this, and keep for every inode that
stays bound the object for which it stands.
-/
namespace InodeBridge.Dispatcher

open Storage (Call Event)
open Host (ObjectId)

/-- A consistent table of which every path is at or below the root and names an object of a tree. -/
structure Fits (t : InodeTable) (h : Host) : Prop where
  tree : h.IsTree
  consistent : t.Consistent
  root_bound : t.resolve? rootInode = some t.root
  within : ∀ {i p}, t.resolve? i = some p → t.root.components <+: p.components
  present : ∀ {i p}, t.resolve? i = some p → (h.objectAt? p).isSome

/-- Every inode that stays bound stands for the object for which it stood. -/
def Keeps (t : InodeTable) (h : Host) (t' : InodeTable) (h' : Host) : Prop :=
  ∀ i p p', t.resolve? i = some p → t'.resolve? i = some p' → h.objectAt? p = h'.objectAt? p'

section Fits

variable {t t' : InodeTable} {h h' : Host}

theorem Fits.binds {new : Path → Prop} (hf : Fits t h) (hg : h.Grows h') (hb : t.Binds t' new)
    (hnew : ∀ p, new p → t.root.components <+: p.components ∧ (h'.objectAt? p).isSome) :
    Fits t' h' ∧ Keeps t h t' h' := by
  have hkept : ∀ {i p}, t.resolve? i = some p → h'.objectAt? p = h.objectAt? p := by
    intro i p hp
    obtain ⟨x, hx⟩ := Option.isSome_iff_exists.1 (hf.present hp)
    rw [hx]
    exact hg.objectOf? hx
  constructor
  · constructor
    · exact hg.tree hf.tree
    · exact hb.consistent hf.consistent
    · rw [hb.root_eq]
      exact hb.kept hf.root_bound
    · intro i p hp
      rw [hb.root_eq]
      exact (hb.fresh hp).elim (fun hold => hf.within hold) fun hfresh => (hnew p hfresh).1
    · intro i p hp
      rcases hb.fresh hp with hold | hfresh
      · rw [hkept hold]
        exact hf.present hold
      · exact (hnew p hfresh).2
  · intro i p p' hp hp'
    rw [hb.kept hp] at hp'
    rw [← Option.some.inj hp', hkept hp]

/-- Inodes are dropped, while the host stays as it is where the others lead. -/
theorem Fits.drops (hf : Fits t h) (hd : t.Drops t') (ht : h'.IsTree)
    (hsame : ∀ i p, t'.resolve? i = some p → h'.objectAt? p = h.objectAt? p) :
    Fits t' h' ∧ Keeps t h t' h' := by
  constructor
  · constructor
    · exact ht
    · exact hd.consistent hf.consistent
    · rw [hd.root_eq, hd.root_kept]
      exact hf.root_bound
    · intro i p hp
      rw [hd.root_eq]
      exact hf.within (hd.dropped hp)
    · intro i p hp
      rw [hsame i p hp]
      exact hf.present (hd.dropped hp)
  · intro i p p' hp hp'
    rw [hd.dropped hp'] at hp
    rw [← Option.some.inj hp, hsame i p' hp']

theorem Fits.removes (hf : Fits t h) {path : Path} (hr : h.Removes h' path.components)
    (hroot : ¬ path.components <+: t.root.components) :
    Fits (t.unbindPath path).2 h' ∧ Keeps t h (t.unbindPath path).2 h' := by
  refine hf.drops (InodeTable.drops_unbindPath t path) hr.tree fun i p hp => hr.elsewhere _ ?_
  have hold := (InodeTable.drops_unbindPath t path).dropped hp
  rintro ⟨steps, hsteps⟩
  by_cases hi : i = rootInode
  · subst hi
    rw [hf.root_bound] at hold
    obtain rfl := Option.some.inj hold
    exact hroot ⟨steps, hsteps⟩
  · have hne := InodeTable.components_ne_of_unbindPath hf.consistent hp hi
    have hpresent := hf.present hold
    rw [Host.objectAt?, ← hsteps, hr.nothing_below steps] at hpresent
    · simp at hpresent
    · rintro rfl
      exact hne (by simpa using hsteps.symm)

theorem Fits.moves (hf : Fits t h) {source target : Path}
    (hm : h.Moves h' source.components target.components)
    (hs : ¬ source.components <+: t.root.components)
    (ht : ¬ target.components <+: t.root.components)
    (hwithin : t.root.components <+: target.components) :
    Fits (t.rename source target).2 h' ∧ Keeps t h (t.rename source target).2 h' := by
  have hapart : source.Apart target := ⟨hm.source_apart, hm.target_apart⟩
  have hcases : ∀ {i p}, (t.rename source target).2.resolve? i = some p → ∃ q,
      t.resolve? i = some q ∧ t.root.components <+: p.components ∧
        h'.objectAt? p = h.objectAt? q := by
    intro i p hp
    obtain ⟨q, hq, hcase⟩ := InodeTable.resolve?_of_rename hf.consistent hapart
      (fun q hq => by rwa [← Option.some.inj (hf.root_bound.symm.trans hq)]) hp
    refine ⟨q, hq, ?_⟩
    rcases hcase with ⟨steps, hq', hp'⟩ | ⟨hw, hne, rfl⟩
    · refine ⟨hwithin.trans ⟨steps, hp'.symm⟩, ?_⟩
      rw [Host.objectAt?, hp', hm.along, ← hq']
      rfl
    · refine ⟨hf.within hq, hm.elsewhere _ hw ?_⟩
      rintro ⟨steps, hsteps⟩
      have hpresent := hf.present hq
      rw [Host.objectAt?, ← hsteps, hm.nothing_below steps] at hpresent
      · simp at hpresent
      · rintro rfl
        exact hne (by simpa using hsteps.symm)
  constructor
  · constructor
    · exact hm.tree
    · exact hf.consistent.rename (.inr hapart)
    · rw [InodeTable.root_rename]
      exact InodeTable.root_kept_of_rename hf.consistent hapart hf.root_bound hs ht
    · intro i p hp
      obtain ⟨q, _, hpre, _⟩ := hcases hp
      rwa [InodeTable.root_rename]
    · intro i p hp
      obtain ⟨q, hq, _, heq⟩ := hcases hp
      rw [heq]
      exact hf.present hq
  · intro i p p' hp hp'
    obtain ⟨q, hq, _, heq⟩ := hcases hp'
    rw [heq, Option.some.inj (hp.symm.trans hq)]

end Fits

end InodeBridge.Dispatcher
