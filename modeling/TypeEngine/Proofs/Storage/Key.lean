import TypeEngine.Proofs.Storage.Location
import TypeEngine.Storage.Cache

/-!
# Keys and the files they name

The message that a key is the hash of tells its texts apart, where the last one holds no zero
(`message_inj`). Each key names a file of its own in the cache directory (`isPlain_fileName`,
`fileName_inj`).
-/

namespace TypeEngine.Storage.Cache

/-! ### Bytes of texts -/

theorem bytes_eq (t : String) : t.toUTF8.data.toList = t.toList.flatMap String.utf8EncodeChar := by
  rw [String.toUTF8_eq_toByteArray, ← String.utf8Encode_toList, List.utf8Encode, List.toList_data_toByteArray]

theorem bytes_inj {t u : String} (same : t.toUTF8.data.toList = u.toUTF8.data.toList) : t = u :=
  String.toByteArray_inj.mp (ByteArray.ext (Array.toList_inj.mp same))

theorem ofNat_eq_zero {n : Nat} (small : n < 256) (zero : 0 = UInt8.ofNat n) : n = 0 := by
  have same := congrArg UInt8.toNat zero
  rw [UInt8.toNat_ofNat_of_lt' small] at same
  exact same.symm

theorem eq_zero_of_mem_utf8EncodeChar {c : Char} (zero : 0 ∈ String.utf8EncodeChar c) : c = '\x00' := by
  have high : ∀ n, 128 ≤ n → n < 256 → 0 ≠ UInt8.ofNat n := by
    intro n low high same
    have := ofNat_eq_zero high same
    omega
  unfold String.utf8EncodeChar at zero
  dsimp only at zero
  split at zero
  · rename_i ascii
    have low := ofNat_eq_zero (by omega) (List.mem_singleton.mp zero)
    exact Char.ext (UInt32.toNat_inj.mp low)
  -- a character of two bytes or more has the high bit in each of them
  · split at zero
    · simp only [List.mem_cons, List.not_mem_nil, or_false] at zero
      rcases zero with zero | zero <;> exact absurd zero (high _ (by omega) (by omega))
    · split at zero
      · simp only [List.mem_cons, List.not_mem_nil, or_false] at zero
        rcases zero with zero | zero | zero <;> exact absurd zero (high _ (by omega) (by omega))
      · simp only [List.mem_cons, List.not_mem_nil, or_false] at zero
        rcases zero with zero | zero | zero | zero <;> exact absurd zero (high _ (by omega) (by omega))

theorem zero_notMem_bytes {t : String} (solid : '\x00' ∉ t.toList) : 0 ∉ t.toUTF8.data.toList := by
  rw [bytes_eq, List.mem_flatMap]
  rintro ⟨c, member, zero⟩
  exact solid (eq_zero_of_mem_utf8EncodeChar zero ▸ member)

/-! ### Messages -/

theorem message_append (texts : List String) (t : String) :
    message (texts ++ [t]) = message texts ++ 0 :: t.toUTF8.data.toList := List.foldl_append

theorem message_inj (texts texts' : List String) {t t' : String} (solid : '\x00' ∉ t.toList)
    (solid' : '\x00' ∉ t'.toList) (same : message (texts ++ [t]) = message (texts' ++ [t'])) :
    message texts = message texts' ∧ t = t' := by
  rw [message_append, message_append] at same
  -- the last text starts after the last zero, so the messages are read from their ends
  have reversed := congrArg List.reverse same
  simp only [List.reverse_append, List.reverse_cons, List.append_assoc, List.singleton_append] at reversed
  obtain ⟨last, before⟩ := Text.append_cons_inj (by simpa using zero_notMem_bytes solid)
    (by simpa using zero_notMem_bytes solid') reversed
  exact ⟨List.reverse_inj.mp before, bytes_inj (List.reverse_inj.mp last)⟩

theorem message_cancel (texts : List String) {t t' : String}
    (same : message (texts ++ [t]) = message (texts ++ [t'])) : t = t' := by
  rw [message_append, message_append] at same
  exact bytes_inj (List.cons.inj (List.append_cancel_left same)).2

/-! ### Names of files -/

theorem solid_toDigits (n : Nat) : '/' ∉ Nat.toDigits 16 n := by
  have digit : ∀ k < 16, '/' ≠ Nat.digitChar k := by decide
  induction n using Nat.strongRecOn with
  | ind n ih =>
    rw [Nat.toDigits_eq_if (by decide)]
    split
    · rename_i small
      exact List.mem_singleton.not.mpr (digit n small)
    · rename_i large
      rw [List.mem_append, not_or]
      exact ⟨ih (n / 16) (by omega), List.mem_singleton.not.mpr (digit (n % 16) (by omega))⟩

theorem solid_hexDigits (w : UInt32) : '/' ∉ (hexDigits w).toList := by
  rw [hexDigits, String.toList_ofList, List.mem_append, not_or]
  exact ⟨fun member => absurd (List.eq_of_mem_replicate member) (by decide), solid_toDigits _⟩

theorem notMem_intercalate {c : Char} {sep : String} (apart : c ∉ sep.toList) {ts : List String}
    (each : ∀ t ∈ ts, c ∉ t.toList) : c ∉ (sep.intercalate ts).toList := by
  induction ts with
  | nil => simp
  | cons t ts ih =>
    rw [List.forall_mem_cons] at each
    cases ts with
    | nil => simpa using each.1
    | cons t' ts =>
      rw [String.intercalate_cons_cons, String.toList_append, String.toList_append]
      simp only [List.mem_append, not_or]
      exact ⟨⟨each.1, apart⟩, ih each.2⟩

theorem solid_key (texts : List String) : '/' ∉ (key texts).toList := by
  refine notMem_intercalate (by decide) fun t member => ?_
  obtain ⟨w, _, rfl⟩ := List.mem_map.mp member
  exact solid_hexDigits w

theorem isPlain_fileName (texts : List String) : IsPlain (fileName (key texts)) := by
  have chars : (fileName (key texts)).toList = 'c' :: "atalog-".toList ++ (key texts).toList ++ ".yaml".toList := by
    simp [fileName]
  have other : ∀ text : String, text.toList.head? ≠ some 'c' → fileName (key texts) ≠ text := by
    intro text start same
    rw [← same, chars] at start
    exact start rfl
  refine ⟨other "" (by decide), other "." (by decide), other ".." (by decide), ?_⟩
  rw [chars]
  simp [solid_key]

theorem fileName_inj {key key' : String} (same : fileName key = fileName key') : key = key' := by
  have chars := congrArg String.toList same
  simp only [fileName, String.toList_append] at chars
  exact String.toList_inj.mp (List.append_cancel_left (List.append_cancel_right chars))

end TypeEngine.Storage.Cache
