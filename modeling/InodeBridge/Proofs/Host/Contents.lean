import InodeBridge.Host.Content

/-! # Contents as images

An image of a content is the list of all its bytes.  Writing to a content lays bytes over its image, in
which a gap before them is filled with zeros, and resizing it cuts the image or adds zeros.  What is read
is a part of the image.
-/
namespace InodeBridge.Host

/-- Some bytes cut to a length, or filled up with zeros. -/
def resized (image : Bytes) (length : Nat) : Bytes :=
  image.take length ++ List.replicate (length - image.length) 0

def overlaid (image : Bytes) (offset : Nat) (data : Bytes) : Bytes :=
  if data = [] then image
  else resized image offset ++ data ++ image.drop (offset + data.length)

section Images

variable (image data : Bytes) (offset length i : Nat)

theorem length_resized : (resized image length).length = length := by
  rw [resized, List.length_append, List.length_take, List.length_replicate]
  omega

theorem length_overlaid (hdata : data ≠ []) :
    (overlaid image offset data).length = max image.length (offset + data.length) := by
  rw [overlaid, if_neg hdata, List.length_append, List.length_append, length_resized,
    List.length_drop]
  omega

theorem getD_resized :
    (resized image length).getD i 0 = if i < length then image.getD i 0 else 0 := by
  simp only [resized, List.getD_eq_getElem?_getD, List.getElem?_append, List.length_take,
    List.getElem?_take, List.getElem?_replicate]
  by_cases hi : i < length
  · by_cases himage : i < image.length
    · rw [if_pos (by omega), if_pos hi, if_pos hi]
    · rw [if_neg (by omega), if_pos (by omega), if_pos hi, List.getElem?_eq_none (by omega)]
      rfl
  · rw [if_neg (by omega), if_neg (by omega), if_neg hi]
    rfl

theorem getD_overlaid (hdata : data ≠ []) :
    (overlaid image offset data).getD i 0 =
      if offset ≤ i ∧ i < offset + data.length then data.getD (i - offset) 0
      else image.getD i 0 := by
  have hresized := getD_resized image offset i
  simp only [List.getD_eq_getElem?_getD] at hresized ⊢
  rw [overlaid, if_neg hdata, List.append_assoc, List.getElem?_append, length_resized]
  by_cases hbefore : i < offset
  · rw [if_pos hbefore, hresized, if_pos hbefore, if_neg (by omega)]
  · rw [if_neg hbefore, List.getElem?_append]
    by_cases hwithin : i < offset + data.length
    · rw [if_pos (by omega), if_pos (by omega)]
    · rw [if_neg (by omega), if_neg (by omega), List.getElem?_drop,
        show offset + data.length + (i - offset - data.length) = i by omega]

end Images

namespace Stretch

variable (s : Stretch)

theorem get?_before (length i : Nat) :
    (s.before length).get? i = if i < length then s.get? i else none := by
  rw [get?, before, get?]
  dsimp only
  rw [List.getElem?_take]
  by_cases hfrom : s.offset ≤ i
  · rw [if_pos hfrom, if_pos hfrom]
    congr 1
    exact propext (by omega)
  · rw [if_neg hfrom, if_neg hfrom, ite_self]

theorem getElem?_overlay (start j : Nat) (window : Bytes) :
    (s.overlay start window)[j]? = window[j]?.map fun b => (s.get? (start + j)).getD b := by
  obtain ⟨offset, bytes⟩ := s
  by_cases hj : j < window.length
  · rw [List.getElem?_eq_getElem hj, Option.map_some]
    simp only [overlay, get?, List.getElem?_append, List.getElem?_take, List.getElem?_drop,
      List.length_append, List.length_take, List.length_drop]
    by_cases hbefore : j < offset - start
    · rw [if_pos (by omega), if_pos (by omega), if_pos hbefore, if_neg (by omega),
        List.getElem?_eq_getElem hj]
      rfl
    · rw [if_pos (by omega : offset ≤ start + j)]
      by_cases hlaid : start + j - offset < bytes.length
      · rw [if_pos (by omega), if_neg (by omega), if_pos (by omega),
          show start - offset + (j - min (offset - start) window.length) = start + j - offset by omega,
          List.getElem?_eq_getElem hlaid]
        rfl
      · rw [if_neg (by omega), List.getElem?_eq_none (by omega : bytes.length ≤ start + j - offset),
          show offset - start + min (window.length - (offset - start))
            (bytes.length - (start - offset)) +
              (j - (min (offset - start) window.length +
                min (window.length - (offset - start)) (bytes.length - (start - offset)))) = j by omega,
          List.getElem?_eq_getElem hj]
        rfl
  · rw [List.getElem?_eq_none (by omega : window.length ≤ j), List.getElem?_eq_none]
    · rfl
    · simp only [overlay, List.length_append, List.length_take, List.length_drop]
      omega

end Stretch

namespace Content

variable {c : Content} {image : Bytes}

theorem byte_write (offset : Nat) {data : Bytes} (hdata : data ≠ []) (i : Nat) :
    (c.write offset data).byte i =
      if offset ≤ i ∧ i < offset + data.length then data.getD (i - offset) 0 else c.byte i := by
  rw [write, if_neg (by simpa using hdata), byte, List.findSome?_cons, Stretch.get?, byte]
  dsimp only
  by_cases hwithin : offset ≤ i ∧ i < offset + data.length
  · rw [if_pos hwithin.1, if_pos hwithin, List.getElem?_eq_getElem (by omega)]
    rw [List.getD_eq_getElem?_getD, List.getElem?_eq_getElem (by omega), Option.getD_some]
  · rw [if_neg hwithin]
    by_cases hfrom : offset ≤ i
    · rw [if_pos hfrom, List.getElem?_eq_none (by omega)]
    · rw [if_neg hfrom]

theorem byte_resize (length i : Nat) :
    (c.resize length).byte i = if i < length then c.byte i else 0 := by
  rw [resize, byte, List.findSome?_map, byte]
  by_cases hi : i < length
  · rw [if_pos hi]
    congr 2
    funext s
    rw [Function.comp_apply, Stretch.get?_before, if_pos hi]
  · rw [if_neg hi, List.findSome?_eq_none_iff.2]
    · rfl
    · intro s _
      rw [Function.comp_apply, Stretch.get?_before, if_neg hi]

theorem getElem?_read (c : Content) (offset size j : Nat) :
    (c.read offset size)[j]? =
      if j < min size (c.length - offset) then some (c.byte (offset + j)) else none := by
  have key : ∀ (stretches : List Stretch) (zeros : Bytes),
      (stretches.foldr (fun s window => s.overlay offset window) zeros)[j]? =
        zeros[j]?.map fun b => (stretches.findSome? (·.get? (offset + j))).getD b := by
    intro stretches zeros
    induction stretches with
    | nil => simp
    | cons s stretches ih =>
      rw [List.foldr_cons, Stretch.getElem?_overlay, ih, Option.map_map, List.findSome?_cons]
      congr 1
      funext b
      rw [Function.comp_apply]
      cases s.get? (offset + j) <;> rfl
  rw [read, key, List.getElem?_replicate]
  split <;> rfl

/-- An image of a content has its length and its bytes, and nothing was left beyond its end. -/
structure Holds (c : Content) (image : Bytes) : Prop where
  length_eq : c.length = image.length
  byte_eq : ∀ i, c.byte i = image.getD i 0

theorem holds_empty : empty.Holds [] := ⟨rfl, fun _ => rfl⟩

namespace Holds

variable (h : c.Holds image)

include h

theorem write (offset : Nat) (data : Bytes) :
    (c.write offset data).Holds (overlaid image offset data) := by
  by_cases hdata : data = []
  · subst hdata
    exact h
  · constructor
    · rw [length_overlaid image data offset hdata, ← h.length_eq, Content.write,
        if_neg (by simpa using hdata)]
    · intro i
      rw [byte_write offset hdata, getD_overlaid image data offset i hdata, h.byte_eq]

theorem resize (length : Nat) : (c.resize length).Holds (resized image length) where
  length_eq := (length_resized image length).symm
  byte_eq i := by rw [byte_resize, getD_resized, h.byte_eq]

theorem read_eq (offset size : Nat) : c.read offset size = (image.drop offset).take size := by
  apply List.ext_getElem?
  intro j
  rw [getElem?_read, List.getElem?_take, List.getElem?_drop, h.length_eq, h.byte_eq]
  by_cases hsize : j < size
  · rw [if_pos hsize]
    by_cases hend : offset + j < image.length
    · rw [if_pos (by omega), List.getD_eq_getElem?_getD, List.getElem?_eq_getElem hend]
      rfl
    · rw [if_neg (by omega), List.getElem?_eq_none (by omega)]
  · rw [if_neg hsize, if_neg (by omega)]

end Holds
end Content
end InodeBridge.Host
