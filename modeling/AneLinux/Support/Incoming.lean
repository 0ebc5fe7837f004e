import AneLinux.Support.Attempt

/-!
# Bytes that arrive in pieces

What a reader has not seen yet is a buffer of its own and the pieces that are still to arrive. A piece is read whole, or
up to a limit. A reader takes a text from the stream when it returns the same value however the stream is cut, and
leaves exactly what is behind the text; readers that take texts compose.
-/

namespace AneLinux.Support

/-- A buffer and the pieces that are still to arrive. -/
structure Incoming (β : Type) where
  buffer : List β
  pieces : List (List β)

namespace Incoming

variable {β ε α γ : Type} {s : Incoming β}

/-- All that the reader has not seen yet. -/
def stream (s : Incoming β) : List β := s.buffer ++ s.pieces.flatten

/-- No piece is empty; an empty one is the end of the file. -/
def Arriving (s : Incoming β) : Prop := ∀ piece ∈ s.pieces, piece ≠ []

/-- One read of at most `want` bytes. It raises when no piece arrives in time, and at the end of the file. -/
def receive (late eof : ε) (want : ℕ) : Direct (Incoming β) ε (List β) := fun s =>
  match s.pieces with
  | [] => (.error late, s)
  | piece :: rest =>
    match piece.take want with
    | [] => (.error eof, { s with pieces := rest })
    | first :: chunk =>
      (.ok (first :: chunk),
        { s with pieces := match piece.drop want with
                           | [] => rest
                           | next :: later => (next :: later) :: rest })

/-- As long as there is more to come, a read gets some of it, in order. -/
theorem receive_eq (late eof : ε) {want : ℕ} (harriving : s.Arriving) (hmore : s.pieces.flatten ≠ [])
    (hwant : 0 < want) : ∃ chunk s', receive late eof want s = (.ok chunk, s') ∧ chunk ≠ [] ∧ chunk.length ≤ want ∧
      s'.buffer = s.buffer ∧ s'.Arriving ∧ s.pieces.flatten = chunk ++ s'.pieces.flatten := by
  obtain ⟨buffer, pieces⟩ := s
  cases pieces with
  | nil => exact (hmore rfl).elim
  | cons piece rest =>
    obtain ⟨hpiece, hrest⟩ := List.forall_mem_cons.mp harriving
    have hlen : (piece.take want).length ≤ want := List.length_take_le _ _
    cases htake : piece.take want with
    | nil =>
      rw [List.take_eq_nil_iff] at htake
      obtain h | h := htake
      · omega
      · exact (hpiece h).elim
    | cons first chunk =>
      have hsplit := List.take_append_drop want piece
      rw [htake] at hsplit hlen
      cases hdrop : piece.drop want with
      | nil =>
        rw [hdrop, List.append_nil] at hsplit
        refine ⟨first :: chunk, ⟨buffer, rest⟩, ?_, List.cons_ne_nil _ _, hlen, rfl, hrest, ?_⟩
        · simp only [receive, htake, hdrop]
        · rw [hsplit, List.flatten_cons]
      | cons next later =>
        rw [hdrop] at hsplit
        refine ⟨first :: chunk, ⟨buffer, (next :: later) :: rest⟩, ?_, List.cons_ne_nil _ _, hlen, rfl, ?_, ?_⟩
        · simp only [receive, htake, hdrop]
        · exact List.forall_mem_cons.mpr ⟨List.cons_ne_nil _ _, hrest⟩
        · rw [← hsplit, List.flatten_cons, List.flatten_cons, List.append_assoc]

/-- A reader takes a text: it returns the value and leaves what is behind the text, however the stream is cut. -/
def Takes (x : Direct (Incoming β) ε α) (text : List β) (a : α) : Prop :=
  ∀ s rest, Arriving s → s.stream = text ++ rest → ∃ s', x s = (.ok a, s') ∧ s'.Arriving ∧ s'.stream = rest

variable {x : Direct (Incoming β) ε α} {f : α → Direct (Incoming β) ε γ} {text more : List β} {a : α} {c : γ}

theorem Takes.pure (a : α) : Takes (Pure.pure a : Direct (Incoming β) ε α) [] a :=
  fun s _ harriving hstream => ⟨s, rfl, harriving, hstream⟩

/-- One text behind the other. -/
theorem Takes.bind (hx : Takes x text a) (hf : Takes (f a) more c) : Takes (x >>= f) (text ++ more) c := by
  intro s rest harriving hstream
  rw [List.append_assoc] at hstream
  obtain ⟨s₁, hs₁, harriving₁, hstream₁⟩ := hx s _ harriving hstream
  obtain ⟨s₂, hs₂, harriving₂, hstream₂⟩ := hf s₁ rest harriving₁ hstream₁
  exact ⟨s₂, (Direct.bind_of_ok hs₁).trans hs₂, harriving₂, hstream₂⟩

end Incoming

end AneLinux.Support
