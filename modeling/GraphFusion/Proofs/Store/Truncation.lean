import GraphFusion.Proofs.Store.Archive

/-!
Archives that were cut short. Nothing in the file says how long it is, and no sum is kept of
its bytes; what betrays a cut is that some read asks for more than is left. The header and
the index are read as a whole or not at all. Behind them the entries take up the file to
its last byte, so a cut falls into the elements of some tensor, however many tensors without
elements follow it.
-/

namespace GraphFusion

namespace Reader

variable {α β : Type} {read : Reader α} {written written' bytes : List UInt8} {a : α}

/-- The reader takes what was written as `a`, and fails where some of it is missing. -/
structure ReadsWhole (read : Reader α) (written : List UInt8) (a : α) : Prop where
  reads : Reads read written a
  cut : ∀ bytes, bytes <+: written → bytes ≠ written → read bytes = none

theorem Codec.readsWhole {write : α → List UInt8} {fits : α → Prop} (h : Codec read write fits)
    (ha : fits a) : ReadsWhole read (write a) a :=
  ⟨h.reads a ha, fun _ => h.eq_none_of_cut ha⟩

theorem readsWhole_take (written : List UInt8) :
    ReadsWhole (take written.length) written written where
  reads := reads_take written
  cut := by
    intro bytes hbytes hne
    have hshort : bytes.length < written.length := by
      by_contra hlong
      exact hne (hbytes.eq_of_length_le (Nat.not_lt.mp hlong))
    rw [take, if_pos hshort]

/-- The beginning of something written in two parts ends in the first part or behind it. -/
theorem prefix_append_cases (h : bytes <+: written ++ written') :
    (bytes <+: written ∧ bytes ≠ written) ∨
      ∃ rest, bytes = written ++ rest ∧ rest <+: written' := by
  by_cases hlong : written <+: bytes
  · obtain ⟨rest, hrest⟩ := hlong
    subst hrest
    exact .inr ⟨rest, rfl, (List.prefix_append_right_inj written).mp h⟩
  · obtain hfirst | hfirst := List.prefix_or_prefix_of_prefix h (List.prefix_append written _)
    · refine .inl ⟨hfirst, ?_⟩
      intro heq
      exact hlong (heq ▸ List.prefix_refl _)
    · exact absurd hfirst hlong

theorem ReadsWhole.bind {next : α → Reader β} {b : β} (hread : ReadsWhole read written a)
    (hnext : ReadsWhole (next a) written' b) :
    ReadsWhole (read >>= next) (written ++ written') b where
  reads := hread.reads.bind hnext.reads
  cut := by
    intro bytes hbytes hne
    show ((read bytes).bind fun p => next p.1 p.2) = none
    obtain ⟨hfirst, hshort⟩ | ⟨rest, hrest, hsecond⟩ := prefix_append_cases hbytes
    · rw [hread.cut bytes hfirst hshort, Option.bind_none]
    · subst hrest
      rw [hread.reads rest, Option.bind_some]
      exact hnext.cut rest hsecond fun heq => hne (congrArg (written ++ ·) heq)

end Reader

namespace Archive

open Reader (ReadsWhole)

/-- The elements of all leaves, one after the other. -/
abbrev elements (leaves : List (String × Tensor)) : List UInt8 :=
  leaves.flatMap fun (_, t) => t.data.writeElements

/-- Reading what is cut somewhere fails if the cut is in front of the end of what is read. -/
theorem reading_of_cut {α : Type} {read : Reader α} {written rest cut : List UInt8} {a : α}
    (h : ReadsWhole read written a) (hcut : cut <+: written ++ rest)
    (hne : cut ≠ written ++ rest) :
    reading read cut = .error .file ∨
      ∃ left, left <+: rest ∧ left ≠ rest ∧ reading read cut = .ok (a, left) := by
  obtain ⟨hfirst, hshort⟩ | ⟨left, hleft, hrest⟩ := Reader.prefix_append_cases hcut
  · refine .inl ?_
    rw [reading, h.cut cut hfirst hshort]
  · subst hleft
    refine .inr ⟨left, hrest, ?_, reading_of_reads h.reads left⟩
    intro heq
    exact hne (congrArg (written ++ ·) heq)

/-- The header and the index are whole or the file is refused. -/
theorem entries_of_cut {leaves : List (String × Tensor)} {cut : List UInt8}
    (hindex : indexLength leaves < UInt32.size) (hcut : cut <+: head leaves)
    (hne : cut ≠ head leaves) : entries cut = .error .file := by
  have hmagic := Reader.readsWhole_take magic
  have hversion : ReadsWhole Reader.word32 (Bytes.word32 version) version :=
    Reader.codec_word32.readsWhole (by decide)
  have htake :=
    Reader.readsWhole_take (writeIndex (place (headerLength + indexLength leaves) leaves))
  rw [length_writeIndex_place] at htake
  have hbody : ReadsWhole (do Reader.take (← Reader.word32)) _ _ :=
    (Reader.codec_word32.readsWhole hindex).bind htake
  have hhead : head leaves = magic ++ (Bytes.word32 version ++
      ((Bytes.word32 (indexLength leaves) ++
        writeIndex (place (headerLength + indexLength leaves) leaves)) ++ [])) := by
    simp only [head, List.append_assoc, List.append_nil]
  rw [hhead] at hcut hne
  obtain hshort | ⟨rest, hrest, hne, hread⟩ := reading_of_cut hmagic hcut hne
  · rw [entries, hshort, error_bind]
  · rw [entries, hread, ok_bind]
    simp only [ne_eq, not_true_eq_false, if_false]
    obtain hshort | ⟨rest', hrest', hne', hread'⟩ := reading_of_cut hversion hrest hne
    · rw [hshort, error_bind]
    · rw [hread', ok_bind]
      simp only [not_true_eq_false, if_false]
      obtain hshort | ⟨rest'', hnil, hne'', -⟩ := reading_of_cut hbody hrest' hne'
      · rw [hshort, error_bind]
      · exact absurd (List.prefix_nil.mp hnil) hne''

/-- A tensor is not read where some of its elements are missing. -/
theorem tensorAt_of_cut {file cut : List UInt8} (name : String) {t : Tensor} {offset : Nat}
    (hfile : file.drop offset = cut) (hcut : cut <+: t.data.writeElements)
    (hne : cut ≠ t.data.writeElements) :
    tensorAt file ⟨name, t.shape, t.data.dtype, offset, t.data.writeElements.length⟩ =
      .error .file := by
  have hread : reading (Reader.take t.data.writeElements.length) cut = .error .file := by
    rw [reading, (Reader.readsWhole_take _).cut cut hcut hne]
  rw [tensorAt]
  by_cases hoffset : maxFileLength < offset
  · rw [if_pos hoffset]
    rfl
  · rw [if_neg hoffset]
    simp only [hfile, hread]
    rfl

/-- The tensors in front of the cut are read, and the first one behind it is not. -/
theorem mapM_place_of_cut {leaves : List (String × Tensor)} {cut : List UInt8}
    (front : List UInt8) (hcut : cut <+: elements leaves) (hne : cut ≠ elements leaves)
    (hlength : (front ++ cut).length ≤ maxFileLength)
    (hleaves : ∀ leaf ∈ leaves, leaf.2.Storable) :
    ((place front.length leaves).mapM fun e => do return (e.name, ← tensorAt (front ++ cut) e)) =
      .error .file := by
  induction leaves generalizing front cut with
  | nil => exact absurd (List.prefix_nil.mp hcut) hne
  | cons leaf leaves ih =>
    obtain ⟨name, t⟩ := leaf
    have hdrop : (front ++ cut).drop front.length = cut := List.drop_left
    rw [place, List.mapM_cons]
    -- a tensor without elements is never where the cut is: no strict prefix of nothing exists
    obtain ⟨hfirst, hshort⟩ | ⟨rest, hrest, hlater⟩ := Reader.prefix_append_cases hcut
    · rw [tensorAt_of_cut name hdrop hfirst hshort]
      rfl
    · subst hrest
      have hfront : front.length ≤ maxFileLength := by
        rw [List.length_append] at hlength
        omega
      have ht := tensorAt_of_eq name hdrop hfront (hleaves _ List.mem_cons_self).sized
      have hleft := ih (front ++ t.data.writeElements) hlater
        (fun heq => hne (congrArg (t.data.writeElements ++ ·) heq))
        (by rwa [List.append_assoc])
        fun leaf hleaf => hleaves leaf (List.mem_cons_of_mem _ hleaf)
      simp only [List.length_append, List.append_assoc, pure_eq_ok] at hleft
      simp only [ht, ok_bind, pure_eq_ok, hleft]
      rfl

/-- A strict beginning of an archive is never read as anything: not as fewer leaves, nor as
shorter or other ones. Only the whole file gives its leaves. -/
theorem leaves_of_cut {leaves : List (String × Tensor)} {file : List UInt8}
    (hwf : ∀ leaf ∈ leaves, leaf.2.WellFormed) (hsave : ofLeaves leaves = .ok file) :
    Archive.leaves file = .ok leaves ∧
      ∀ cut, cut <+: file → cut ≠ file → Archive.leaves cut = .error .file := by
  obtain ⟨hnone, hfile⟩ := ofLeaves_eq_ok_iff.mp hsave
  subst hfile
  obtain ⟨hindex, hlength⟩ := indexLength_lt hnone
  have hleaves := storable_of_obstacle hnone hwf
  rw [← length_content] at hlength
  refine ⟨leaves_content hnone hleaves, ?_⟩
  intro cut hcut hne
  rw [content] at hne
  obtain ⟨hfirst, hshort⟩ | ⟨data, hdata, hlater⟩ := Reader.prefix_append_cases hcut
  · rw [Archive.leaves, entries_of_cut hindex hfirst hshort, error_bind]
  · subst hdata
    have hdata : data ≠ elements leaves := fun heq => hne (congrArg (head leaves ++ ·) heq)
    have hread := mapM_place_of_cut (head leaves) hlater hdata
      (hcut.length_le.trans hlength) hleaves
    rw [length_head] at hread
    rw [Archive.leaves, entries_head_append hnone hleaves, ok_bind]
    exact hread

/-- Elements of one tensor between two without any, so that the last entries of the index ask
for nothing. -/
theorem leaves_of_cut_emptyTail :
    let leaves : List (String × Tensor) := [("", ⟨[0], .int64 []⟩), ("w", ⟨[2], .int32 [1, -1]⟩),
      ("w", ⟨[0, 3], .float64 []⟩)]
    (∀ leaf ∈ leaves, leaf.2.WellFormed) ∧ ofLeaves leaves = .ok (content leaves) ∧
      ∀ length < (content leaves).length,
        Archive.leaves ((content leaves).take length) = .error .file := by
  intro leaves
  have hwf : ∀ leaf ∈ leaves, leaf.2.WellFormed := by
    simp only [leaves, List.forall_mem_cons]
    exact ⟨⟨by decide, by decide⟩, ⟨by decide, by decide⟩, ⟨by decide, by decide⟩, nofun⟩
  have hsave : ofLeaves leaves = .ok (content leaves) := ofLeaves_eq_ok_iff.mpr ⟨by decide, rfl⟩
  refine ⟨hwf, hsave, ?_⟩
  intro length hlength
  have hcut : (content leaves).take length <+: content leaves := List.take_prefix length _
  refine (leaves_of_cut hwf hsave).2 _ hcut ?_
  intro hwhole
  have hshort := congrArg List.length hwhole
  rw [List.length_take] at hshort
  omega

end Archive

end GraphFusion
