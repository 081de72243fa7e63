/-
Cutting at slashes, joining with them, and the bytes of texts.

Joining undoes the cut, and the cut undoes the joining of stretches that have no slash in
them.  What stands behind a slash is cut on its own, so a path that is joined to another
with a slash is cut into the segments of the one and then those of the other.

A slash is one byte and no other character has that byte in it.  So it is one to cut a text at its
slashes or to cut its bytes, and one to put slashes between texts or between their bytes.
What the bytes of a text are shown as is the text.
-/
import Mathlib.Data.List.Basic
import Schemata.Path.Segments

namespace Schemata

/-! ### Cutting -/

section

variable {α : Type} [DecidableEq α] {sep : α}

theorem cutAt_ne_nil (sep : α) (cs : List α) : cutAt sep cs ≠ [] := by
  cases cs with
  | nil => simp [cutAt]
  | cons c cs =>
      unfold cutAt
      split
      · simp
      · split <;> simp

/-- No separator stands in what is cut out. -/
theorem sep_notMem_cutAt {cs s : List α} (h : s ∈ cutAt sep cs) : sep ∉ s := by
  induction cs generalizing s with
  | nil => simp_all [cutAt]
  | cons c cs ih =>
      unfold cutAt at h
      split at h
      · rcases List.mem_cons.mp h with rfl | h
        · simp
        · exact ih h
      · rename_i hc
        split at h
        · simp only [List.mem_singleton] at h
          simp [h, Ne.symm hc]
        · rename_i t ts ht
          rcases List.mem_cons.mp h with rfl | h
          · have hrest := ih (s := t) (by simp [ht])
            simp [hrest, Ne.symm hc]
          · exact ih (by simp [ht, h])

/-- What has no separator in it goes to the front of the first stretch. -/
theorem cutAt_append_of_notMem {front cs s : List α} {ss : List (List α)} (h : sep ∉ front)
    (hcut : cutAt sep cs = s :: ss) : cutAt sep (front ++ cs) = (front ++ s) :: ss := by
  induction front with
  | nil => exact hcut
  | cons c front ih =>
      obtain ⟨hc, hfront⟩ := not_or.mp (List.mem_cons.not.mp h)
      rw [List.cons_append, cutAt, if_neg (Ne.symm hc), ih hfront]
      rfl

theorem cutAt_of_notMem {cs : List α} (h : sep ∉ cs) : cutAt sep cs = [cs] := by
  have hcut : cutAt sep (cs ++ []) = [cs ++ []] := cutAt_append_of_notMem h rfl
  rwa [List.append_nil] at hcut

/-- A separator between two stretches cuts them apart. -/
theorem cutAt_append (cs ds : List α) :
    cutAt sep (cs ++ sep :: ds) = cutAt sep cs ++ cutAt sep ds := by
  induction cs with
  | nil => simp [cutAt]
  | cons c cs ih =>
      by_cases hc : c = sep
      · rw [List.cons_append, cutAt, if_pos hc, ih, cutAt, if_pos hc, List.cons_append]
      · rw [List.cons_append, cutAt, if_neg hc, ih, cutAt, if_neg hc]
        cases hcut : cutAt sep cs with
        | nil => exact absurd hcut (cutAt_ne_nil sep cs)
        | cons s ss => rfl

/-- Cutting undoes joining, for stretches without separators. -/
theorem cutAt_intercalate {ss : List (List α)} (hne : ss ≠ []) (h : ∀ s ∈ ss, sep ∉ s) :
    cutAt sep (List.intercalate [sep] ss) = ss := by
  induction ss with
  | nil => exact absurd rfl hne
  | cons s ss ih =>
      have hs : cutAt sep s = [s] := cutAt_of_notMem (h s List.mem_cons_self)
      rcases ss with _ | ⟨t, ts⟩
      · rw [List.intercalate_singleton, hs]
      · have hcut := ih (by simp) fun r hr => h r (List.mem_cons_of_mem _ hr)
        rw [List.intercalate_cons_cons, List.append_assoc, List.singleton_append,
          cutAt_append, hs, hcut, List.singleton_append]

end

theorem segments_joinSlash {ss : List Raw} (hne : ss ≠ []) (h : ∀ s ∈ ss, slash ∉ s) :
    segments (joinSlash ss) = ss := cutAt_intercalate hne h

/-- A slash between two paths cuts them apart. -/
theorem segments_append (a b : Raw) : segments (a ++ slash :: b) = segments a ++ segments b :=
  cutAt_append a b

theorem slash_notMem_segments {path s : Raw} (h : s ∈ segments path) : slash ∉ s :=
  sep_notMem_cutAt h

/-! ### Bytes of texts -/

namespace Raw

/-- The bytes are those of a text. -/
def IsText (bs : Raw) : Prop := ∃ text : String, bs = text

@[simp] theorem ofString_append (s t : String) :
    ofString (s ++ t) = ofString s ++ ofString t := by
  rw [ofString, String.toList_append, List.flatMap_append]
  rfl

/-- A byte below 128 is a character of its own and in no other. -/
theorem mem_utf8EncodeChar {c : Char} {b : UInt8} (hb : b < 128) :
    b ∈ String.utf8EncodeChar c ↔ c.toNat = b.toNat := by
  have hb : b.toNat < 128 := hb
  have hc : c.val.toNat = c.toNat := rfl
  rw [String.utf8EncodeChar]
  simp only [hc]
  split_ifs <;>
    simp only [List.mem_cons, List.not_mem_nil, or_false, ← UInt8.toNat_inj, UInt8.toNat_ofNat'] <;>
    omega

theorem mem_ofString {s : String} {c : Char} {b : UInt8} (hb : b < 128) (hc : c.toNat = b.toNat) :
    b ∈ ofString s ↔ c ∈ s.toList := by
  rw [ofString, List.mem_flatMap]
  constructor
  · rintro ⟨d, hd, hmem⟩
    have heq : d = c := Char.toNat_inj.mp (((mem_utf8EncodeChar hb).mp hmem).trans hc.symm)
    exact heq ▸ hd
  · exact fun hmem => ⟨c, hmem, (mem_utf8EncodeChar hb).mpr hc⟩

theorem dot_mem_ofString {s : String} : dot ∈ ofString s ↔ '.' ∈ s.toList :=
  mem_ofString (by decide) rfl

/-- Passing over bytes is dropping them. -/
theorem shown_eq_drop (passed : Nat) (bs : Raw) : shown passed bs = shown 0 (bs.drop passed) := by
  induction bs generalizing passed with
  | nil => cases passed <;> simp [shown]
  | cons b bs ih =>
      cases passed with
      | zero => rfl
      | succ passed => rw [shown, ih, List.drop_succ_cons]

/-- A character is shown as it is. -/
theorem shown_utf8EncodeChar_append (c : Char) (bs : Raw) :
    shown 0 (String.utf8EncodeChar c ++ bs) = c :: shown 0 bs := by
  have hdecode : (String.utf8EncodeChar c ++ bs).toByteArray.utf8DecodeChar? 0 = some c := by
    rw [List.toByteArray_append]
    exact ByteArray.utf8DecodeChar?_utf8EncodeChar_append
  have hlength := String.length_utf8EncodeChar c
  cases hbytes : String.utf8EncodeChar c with
  | nil =>
      rw [hbytes] at hlength
      exact absurd hlength.symm (Nat.ne_of_gt c.utf8Size_pos)
  | cons b rest =>
      rw [hbytes] at hdecode hlength
      have hpassed : c.utf8Size - 1 = rest.length := by
        rw [← hlength, List.length_cons, Nat.add_sub_cancel]
      rw [List.cons_append] at hdecode ⊢
      rw [shown, hdecode]
      show c :: shown (c.utf8Size - 1) (rest ++ bs) = c :: shown 0 bs
      rw [hpassed, shown_eq_drop, List.drop_left]

/-- **The bytes of a text are shown as the text.** -/
@[simp] theorem lossy_ofString (s : String) : lossy (ofString s) = s := by
  have hshown : ∀ cs : List Char, shown 0 (cs.flatMap String.utf8EncodeChar) = cs := by
    intro cs
    induction cs with
    | nil => rfl
    | cons c cs ih => rw [List.flatMap_cons, shown_utf8EncodeChar_append, ih]
  rw [lossy, ofString, hshown, String.ofList_toList]

theorem ofString_injective : Function.Injective ofString := fun s t h => by
  rw [← lossy_ofString s, h, lossy_ofString]

/-- The bytes of a text can be told from what they are shown as, and no others can. -/
theorem isText_iff {bs : Raw} : bs.IsText ↔ ofString bs.lossy = bs := by
  refine ⟨?_, fun h => ⟨bs.lossy, h.symm⟩⟩
  rintro ⟨text, rfl⟩
  rw [lossy_ofString]

instance : DecidablePred IsText := fun _ => decidable_of_iff' _ isText_iff

end Raw

/-- It is one to cut a text or its bytes. -/
theorem segments_ofString (text : String) :
    segments text = (textSegments text).map Raw.ofString := by
  have hcut : ∀ cs : List Char, cutAt slash (cs.flatMap String.utf8EncodeChar) =
      (cutAt '/' cs).map (·.flatMap String.utf8EncodeChar) := by
    intro cs
    induction cs with
    | nil => rfl
    | cons c cs ih =>
        rw [List.flatMap_cons, cutAt]
        by_cases hc : c = '/'
        · rw [if_pos hc, hc, show String.utf8EncodeChar '/' = [slash] from by decide,
            List.singleton_append, cutAt, if_pos rfl, ih]
          rfl
        · have hslash : slash ∉ String.utf8EncodeChar c := fun hmem =>
            hc (Char.toNat_inj.mp ((Raw.mem_utf8EncodeChar (by decide)).mp hmem))
          cases hrest : cutAt '/' cs with
          | nil => exact absurd hrest (cutAt_ne_nil '/' cs)
          | cons s ss =>
              rw [hrest] at ih
              rw [if_neg hc, cutAt_append_of_notMem hslash ih]
              rfl
  rw [segments, Raw.ofString, hcut, textSegments, List.map_map]
  refine List.map_congr_left fun cs _ => ?_
  rw [Function.comp_apply, Raw.ofString, String.toList_ofList]

/-- It is one to put slashes between texts or between their bytes. -/
theorem ofString_intercalate (ss : List String) :
    Raw.ofString ("/".intercalate ss) = joinSlash (ss.map Raw.ofString) := by
  induction ss with
  | nil => rfl
  | cons s ss ih =>
      rcases ss with _ | ⟨t, ts⟩
      · rw [String.intercalate_singleton, joinSlash, List.map_singleton, List.intercalate_singleton]
      · rw [String.intercalate_cons_of_ne_nil (by simp), Raw.ofString_append,
          Raw.ofString_append, ih,
          show Raw.ofString "/" = [slash] from by decide]
        exact List.intercalate_cons_cons.symm

end Schemata
