import GraphFusion.Proofs.Bytes.Reading

/-!
Stored forms that are canonical. A reader and a writer make a codec for the values that
fit when the reader reads what the writer wrote, whatever follows it, and accepts nothing
else. So each such value has one stored form, and none begins another. What a reader
takes is followed along a sequence of reads, as in `Reads`.
-/

namespace GraphFusion

theorem Bytes.length_le_length_flatMap {α : Type} (write : α → List UInt8) {items : List α} {a : α}
    (h : a ∈ items) : (write a).length ≤ (items.flatMap write).length := by
  rw [List.flatMap_def]
  exact (List.sublist_flatten_of_mem (List.mem_map_of_mem h)).length_le

namespace Reader

variable {α β : Type}

/-- Where the reader succeeds, `Q` holds of the bytes that it took and of what it gives. -/
def Takes (read : Reader α) (Q : List UInt8 → α → Prop) : Prop :=
  ∀ bytes a rest, read bytes = some (a, rest) → ∃ taken, bytes = taken ++ rest ∧ Q taken a

section

variable {read : Reader α} {Q Q' : List UInt8 → α → Prop} {R : List UInt8 → β → Prop}

theorem takes_pure {a : α} (h : Q [] a) : Takes (pure a) Q := by
  intro bytes b rest hread
  cases hread
  exact ⟨[], rfl, h⟩

theorem takes_failure : Takes (failure : Reader α) Q := fun _ _ _ h => nomatch h

theorem Takes.mono (h : Takes read Q) (hQ : ∀ taken a, Q taken a → Q' taken a) :
    Takes read Q' := by
  intro bytes a rest hread
  obtain ⟨taken, hbytes, ha⟩ := h bytes a rest hread
  exact ⟨taken, hbytes, hQ taken a ha⟩

theorem Takes.bind {next : α → Reader β} (h : Takes read Q)
    (hnext : ∀ taken a, Q taken a → Takes (next a) fun taken' b => R (taken ++ taken') b) :
    Takes (read >>= next) R := by
  intro bytes b rest hread
  have hbind : ((read bytes).bind fun p => next p.1 p.2) = some (b, rest) := hread
  obtain ⟨⟨a, middle⟩, hfirst, hlast⟩ := Option.bind_eq_some_iff.mp hbind
  obtain ⟨taken, rfl, ha⟩ := h bytes a middle hfirst
  obtain ⟨taken', rfl, hb⟩ := hnext taken a ha middle b rest hlast
  exact ⟨taken ++ taken', (List.append_assoc ..).symm, hb⟩

theorem Takes.map (h : Takes read Q) {f : α → β} (hf : ∀ taken a, Q taken a → R taken (f a)) :
    Takes (do return f (← read)) R :=
  h.bind fun taken a ha => takes_pure (by rw [List.append_nil]; exact hf taken a ha)

end

/-- Nothing is read but what is written of values that fit. -/
abbrev Canonical (read : Reader α) (write : α → List UInt8) (fits : α → Prop) : Prop :=
  Takes read fun taken a => fits a ∧ taken = write a

/-- What is written of a value that fits is read back as this value, and nothing else is. -/
structure Codec (read : Reader α) (write : α → List UInt8) (fits : α → Prop) : Prop where
  reads : ∀ a, fits a → Reads read (write a) a
  takes : Canonical read write fits

section

variable {read : Reader α} {write : α → List UInt8} {fits : α → Prop} {bytes : List UInt8} {a b : α}

/-- Exactly the stored forms, with anything behind them, are read. -/
theorem Codec.front?_eq_some_iff (h : Codec read write fits) :
    front? read bytes = some a ↔ fits a ∧ write a <+: bytes := by
  constructor
  · intro hfront
    obtain ⟨⟨_, rest⟩, hread, rfl⟩ := Option.map_eq_some_iff.mp hfront
    obtain ⟨_, rfl, hfits, rfl⟩ := h.takes bytes _ rest hread
    exact ⟨hfits, List.prefix_append _ _⟩
  · rintro ⟨hfits, rest, rfl⟩
    exact (h.reads a hfits).front rest

/-- No stored form begins with that of another value. -/
theorem Codec.eq_of_prefix (h : Codec read write fits) (ha : fits a) (hb : fits b)
    (hbytes : write a <+: bytes) (hbytes' : write b <+: bytes) : a = b := by
  have hfront := h.front?_eq_some_iff.mpr ⟨ha, hbytes⟩
  rw [h.front?_eq_some_iff.mpr ⟨hb, hbytes'⟩] at hfront
  exact (Option.some.inj hfront).symm

/-- What was written and then cut short is not read. -/
theorem Codec.eq_none_of_cut (h : Codec read write fits) (ha : fits a) (hbytes : bytes <+: write a)
    (hne : bytes ≠ write a) : read bytes = none := by
  rw [Option.eq_none_iff_forall_ne_some]
  intro (b, rest) hread
  obtain ⟨_, hsplit, hb, rfl⟩ := h.takes bytes b rest hread
  have hfront : write b <+: bytes := hsplit ▸ List.prefix_append _ _
  have hab := h.eq_of_prefix ha hb (List.prefix_refl _) (hfront.trans hbytes)
  subst hab
  exact hne (hbytes.eq_of_length_le hfront.length_le)

theorem Codec.write_inj (h : Codec read write fits) (ha : fits a) (hb : fits b)
    (hwrite : write a = write b) : a = b :=
  h.eq_of_prefix ha hb (List.prefix_refl _) (hwrite ▸ List.prefix_refl _)

/-- The codec for what is written as the values of another one. -/
theorem Codec.map (h : Codec read write fits) {f : α → β} {write' : β → List UInt8}
    {fits' : β → Prop} (hwrite : ∀ a, fits a → write' (f a) = write a)
    (hfits : ∀ b, fits' b ↔ ∃ a, fits a ∧ f a = b) :
    Codec (do return f (← read)) write' fits' where
  reads b hb := by
    obtain ⟨a, ha, rfl⟩ := (hfits b).mp hb
    rw [hwrite a ha]
    exact (h.reads a ha).map f
  takes := h.takes.map fun taken a ⟨ha, htaken⟩ =>
    ⟨(hfits _).mpr ⟨a, ha, rfl⟩, htaken.trans (hwrite a ha).symm⟩

end

theorem takes_byte : Takes byte fun taken b => taken = [b] := by
  intro bytes b rest hread
  cases bytes with
  | nil => cases hread
  | cons c bytes =>
    cases hread
    exact ⟨[b], rfl, rfl⟩

theorem takes_word (width : Nat) :
    Takes (word width) fun taken n => n < 256 ^ width ∧ taken = Bytes.word width n := by
  induction width with
  | zero => exact takes_pure ⟨by decide, rfl⟩
  | succ width ih =>
    refine takes_byte.bind ?_
    rintro _ low rfl
    refine ih.map ?_
    rintro _ high ⟨hhigh, rfl⟩
    have hlow : low.toNat < 256 := low.toNat_lt
    have hbyte : UInt8.ofNat (low.toNat + 256 * high) = low := by
      rw [← UInt8.toNat_inj, UInt8.toNat_ofNat']
      omega
    have hdiv : (low.toNat + 256 * high) / 256 = high := by omega
    refine ⟨?_, by rw [Bytes.word, hbyte, hdiv]; rfl⟩
    rw [Nat.pow_succ]
    omega

/-- A word is read wherever there are bytes enough. -/
theorem exists_word {width : Nat} {bytes : List UInt8} (h : width ≤ bytes.length) :
    ∃ n rest, word width bytes = some (n, rest) := by
  induction width generalizing bytes with
  | zero => exact ⟨0, bytes, rfl⟩
  | succ width ih =>
    cases bytes with
    | nil => exact absurd h (Nat.not_succ_le_zero _)
    | cons low bytes =>
      obtain ⟨high, rest, hread⟩ := ih (Nat.le_of_succ_le_succ h)
      refine ⟨low.toNat + 256 * high, rest, ?_⟩
      change ((word width bytes).bind _) = _
      rw [hread]
      rfl

theorem word_eq_none {width : Nat} {bytes : List UInt8} (h : bytes.length < width) :
    word width bytes = none := by
  rw [Option.eq_none_iff_forall_ne_some]
  rintro ⟨n, rest⟩ hread
  obtain ⟨_, rfl, -, rfl⟩ := takes_word width bytes n rest hread
  rw [List.length_append, Bytes.length_word] at h
  omega

theorem codec_word32 : Codec word32 Bytes.word32 (· < UInt32.size) :=
  ⟨fun _ => reads_word32, takes_word 4⟩

/-- The small numbers that tell what follows them. -/
theorem reads_tag {n : Nat} (h : n < 256) : Reads word32 (Bytes.word32 n) n :=
  reads_word32 (Nat.lt_trans h (by decide))

/-- The stored form of things that are told apart by a small number. -/
theorem codec_tagged {ofTag? : Nat → Option α} {tag : α → Nat} {next : Nat → Reader α}
    (htag : ∀ a, tag a < 256) (h : ∀ n a, ofTag? n = some a ↔ tag a = n)
    (hnext : ∀ n, next n = (ofTag? n).elim failure pure) :
    Codec (word32 >>= next) (fun a => Bytes.word32 (tag a)) fun _ => True where
  reads a _ := by
    rw [← List.append_nil (Bytes.word32 (tag a))]
    refine (reads_tag (htag a)).bind ?_
    rw [hnext, (h _ a).mpr rfl]
    exact reads_pure a
  takes := by
    refine codec_word32.takes.bind ?_
    rintro _ n ⟨-, rfl⟩
    rw [hnext]
    cases ha : ofTag? n with
    | none => exact takes_failure
    | some a =>
      obtain rfl := (h n a).mp ha
      exact takes_pure ⟨trivial, List.append_nil _⟩

theorem codec_word64 : Codec word64 Bytes.word64 (· < UInt64.size) :=
  ⟨fun _ => reads_word64, takes_word 8⟩

theorem takes_take (n : Nat) : Takes (take n) fun taken bytes => taken = bytes ∧ bytes.length = n := by
  intro bytes taken rest hread
  rw [take] at hread
  split at hread
  · cases hread
  · rename_i hlong
    rw [List.splitAt_eq] at hread
    cases hread
    exact ⟨_, (List.take_append_drop n bytes).symm, rfl, List.length_take_of_le (by omega)⟩

theorem codec_flag : Codec flag Bytes.flag fun _ => True where
  reads b _ := by cases b <;> exact fun _ => rfl
  takes := by
    refine takes_byte.bind ?_
    rintro _ b rfl
    split
    · exact takes_pure ⟨trivial, rfl⟩
    · exact takes_pure ⟨trivial, rfl⟩
    · exact takes_failure

theorem utf8_of_ofUtf8? {bytes : List UInt8} {s : String} (h : ofUtf8? bytes = some s) :
    Bytes.utf8 s = bytes := by
  rw [ofUtf8?, String.fromUTF8?] at h
  split at h
  · cases h
    rfl
  · cases h

theorem codec_text : Codec text Bytes.text (·.utf8ByteSize < UInt64.size) where
  reads _ := reads_text
  takes := by
    refine codec_word64.takes.bind ?_
    rintro _ n ⟨hn, rfl⟩
    refine (takes_take n).bind ?_
    rintro _ bytes ⟨rfl, rfl⟩
    split
    · rename_i s hs
      obtain rfl := utf8_of_ofUtf8? hs
      exact takes_pure ⟨hn, by rw [List.append_nil]; rfl⟩
    · exact takes_failure

section

variable {read : Reader α} {write : α → List UInt8} {fits : α → Prop}

theorem Canonical.option (h : Canonical read write fits) :
    Canonical (option read) (Bytes.option write) fun o => ∀ a ∈ o, fits a := by
  refine codec_flag.takes.bind ?_
  rintro _ present ⟨-, rfl⟩
  cases present with
  | false => exact takes_pure ⟨fun _ h => (nomatch h), rfl⟩
  | true =>
    refine h.map ?_
    rintro _ a ⟨ha, rfl⟩
    exact ⟨fun b hb => Option.some.inj hb ▸ ha, rfl⟩

theorem Canonical.repeated (h : Canonical read write fits) (count : Nat) :
    Takes (repeated read count) fun taken items =>
      items.length = count ∧ (∀ a ∈ items, fits a) ∧ taken = items.flatMap write := by
  induction count with
  | zero => exact takes_pure ⟨rfl, fun _ h => (nomatch h), rfl⟩
  | succ count ih =>
    refine h.bind ?_
    rintro _ a ⟨ha, rfl⟩
    refine ih.map ?_
    rintro _ items ⟨hcount, hitems, rfl⟩
    exact ⟨congrArg (· + 1) hcount, List.forall_mem_cons.mpr ⟨ha, hitems⟩, rfl⟩

theorem Canonical.list (h : Canonical read write fits) :
    Canonical (list read) (Bytes.list write) fun items =>
      items.length < UInt64.size ∧ ∀ a ∈ items, fits a := by
  refine codec_word64.takes.bind ?_
  rintro _ count ⟨hcount, rfl⟩
  refine (Canonical.repeated h count).mono ?_
  rintro _ items ⟨rfl, hitems, rfl⟩
  exact ⟨⟨hcount, hitems⟩, rfl⟩

theorem Codec.option (h : Codec read write fits) :
    Codec (option read) (Bytes.option write) fun o => ∀ a ∈ o, fits a where
  reads o ho := by
    cases o with
    | none => exact (codec_flag.reads false trivial).bind (reads_pure none)
    | some a => exact (codec_flag.reads true trivial).bind ((h.reads a (ho a rfl)).map some)
  takes := Canonical.option h.takes

theorem Codec.list (h : Codec read write fits) : Codec (list read) (Bytes.list write) fun items =>
    items.length < UInt64.size ∧ ∀ a ∈ items, fits a where
  reads items hitems := by
    have hread : Reads (Reader.list read) (Bytes.list write items) (items.map id) :=
      reads_list (fun a ha => h.reads a (hitems.2 a ha)) hitems.1
    rwa [List.map_id] at hread
  takes := Canonical.list h.takes

end

end Reader

end GraphFusion
