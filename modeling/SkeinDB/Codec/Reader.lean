import SkeinDB.Codec.LittleEndian

/-!
# Readers

A reader takes a value off the front of a byte string. It is local when the bytes behind the
ones it takes do not change what it takes; a byte string that a local reader takes whole has
neither an initial part nor an extension that it takes whole.
-/
namespace SkeinDB.Codec

abbrev Reader (ε α : Type) := Bytes → Except ε (α × Bytes)

namespace Reader
variable {ε ε' α β : Type} {read : Reader ε α} {next : α → Reader ε β}

/-- Take a value, and then another from the bytes behind it. -/
def andThen (read : Reader ε α) (next : α → Reader ε β) : Reader ε β := fun bytes =>
  read bytes >>= fun taken => next taken.1 taken.2

theorem andThen_bind {γ : Type} (bytes : Bytes) (f : β × Bytes → Except ε γ) :
    (read.andThen next bytes >>= f) = read bytes >>= fun taken => next taken.1 taken.2 >>= f := by
  rw [andThen]
  cases read bytes <;> rfl

def Local (read : Reader ε α) : Prop :=
  ∀ bytes a rest more, read bytes = .ok (a, rest) → read (bytes ++ more) = .ok (a, rest ++ more)

theorem Local.pure (a : α) : Local (ε := ε) fun bytes => .ok (a, bytes) := by
  rintro bytes a' rest more ⟨⟩
  rfl

theorem Local.error (e : ε) : Local (α := α) fun _ => .error e := by
  intro bytes a rest more h
  cases h

theorem Local.andThen (hread : read.Local) (hnext : ∀ a, (next a).Local) :
    (read.andThen next).Local := by
  intro bytes b rest more h
  rw [Reader.andThen] at h ⊢
  rcases hfirst : read bytes with e | ⟨a, rest'⟩
  · rw [hfirst] at h
    cases h
  · rw [hfirst] at h
    rw [hread _ _ _ _ hfirst]
    exact hnext a _ _ _ _ h

theorem Local.mapError (hread : read.Local) (f : ε → ε') :
    Local fun bytes => (read bytes).mapError f := by
  intro bytes a rest more h
  change (read bytes).mapError f = _ at h
  rcases hfirst : read bytes with e | ⟨a', rest'⟩
  · rw [hfirst] at h
    cases h
  · rw [hfirst] at h
    cases h
    change (read (bytes ++ more)).mapError f = _
    rw [hread _ _ _ _ hfirst]
    rfl

theorem Local.map (hread : read.Local) (f : α → β) :
    Local fun bytes => (read bytes).map fun taken => (f taken.1, taken.2) := by
  intro bytes b rest more h
  change (read bytes).map _ = _ at h
  rcases hfirst : read bytes with e | ⟨a, rest'⟩
  · rw [hfirst] at h
    cases h
  · rw [hfirst] at h
    cases h
    change (read (bytes ++ more)).map _ = _
    rw [hread _ _ _ _ hfirst]
    rfl

/-- Taking a number of bytes, if there are that many. -/
theorem Local.split (count : ℕ) (short : ε) {take : Bytes → α}
    (htake : ∀ bytes more, count ≤ bytes.length → take (bytes ++ more) = take bytes) :
    Local fun bytes =>
      if bytes.length < count then .error short else .ok (take bytes, bytes.drop count) := by
  intro bytes a rest more h
  change ite _ _ _ = _ at h
  by_cases hshort : bytes.length < count
  · rw [if_pos hshort] at h
    cases h
  · rw [if_neg hshort] at h
    cases h
    have hlong : ¬ (bytes ++ more).length < count := by
      rw [List.length_append]
      omega
    change ite _ _ _ = _
    rw [if_neg hlong, htake _ _ (not_lt.mp hshort), List.drop_append_of_le_length (not_lt.mp hshort)]

/-- What a local reader takes from an initial part is what it takes from the whole. -/
theorem Local.of_prefix (hread : read.Local) {part whole : Bytes} {a : α}
    (h : read part = .ok (a, [])) (hpart : part <+: whole) :
    ∃ more, whole = part ++ more ∧ read whole = .ok (a, more) := by
  obtain ⟨more, rfl⟩ := hpart
  exact ⟨more, rfl, hread _ _ _ _ h⟩

end Reader

end SkeinDB.Codec
