import Reaming.PathData.Token

namespace Reaming.PathData

theorem scan_letter (pending xs : List Char) (c : Command) (ys : List Char) :
    scan pending (xs ++ c.letter :: ys) = scan pending xs ++ .command c :: tokens ys := by
  induction xs generalizing pending with
  | nil =>
    have h : scan pending (c.letter :: ys) = flush pending ++ .command c :: scan [] ys := by
      rw [scan, ofLetter?_letter]
    exact h
  | cons x xs ih =>
    rw [List.cons_append, scan, scan]
    split
    · rw [ih, List.append_assoc]
      rfl
    · split
      · rw [ih, List.append_assoc]
      · split
        · rw [ih, List.append_assoc]
        · exact ih _

/-- Characters that have been collected make a number. -/
theorem exists_number_scan {pending : List Char} (h : pending ≠ []) (cs : List Char) :
    ∃ text ts, scan pending cs = .number text :: ts := by
  have hflush : flush pending = [.number pending.reverse] :=
    if_neg (by rwa [List.isEmpty_iff])
  induction cs generalizing pending with
  | nil => exact ⟨_, [], hflush⟩
  | cons c cs ih =>
    rw [scan, hflush]
    split
    · exact ⟨_, _, rfl⟩
    · split
      · exact ⟨_, _, rfl⟩
      · split
        · exact ⟨_, _, rfl⟩
        · exact ih (List.cons_ne_nil c pending) (if_neg (by simp))

def Bare (text : List Char) : Prop := ∀ number, (tokens text).head? ≠ some (.number number)

/-- A number ends where a text begins that has no number at its front. -/
theorem scan_bare {ys : List Char} (h : Bare ys) (pending : List Char) :
    scan pending ys = flush pending ++ tokens ys := by
  cases ys with
  | nil => exact (List.append_nil _).symm
  | cons y ys =>
    rw [Bare, tokens, scan] at h
    rw [tokens, scan, scan]
    split at h
    · rfl
    · split at h
      · rw [if_pos ‹_›, if_pos ‹_›]
        rfl
      · have hnumber (p : List Char) (hp : p ≠ []) :
            ∃ number, (scan p ys).head? = some (.number number) := by
          obtain ⟨number, ts, hscan⟩ := exists_number_scan hp ys
          exact ⟨number, congrArg List.head? hscan⟩
        obtain ⟨number, hhead⟩ := hnumber [y] (List.cons_ne_nil y [])
        refine absurd ?_ (h number)
        split <;> exact hhead

theorem scan_append {ys : List Char} (h : Bare ys) (pending xs : List Char) :
    scan pending (xs ++ ys) = scan pending xs ++ tokens ys := by
  induction xs generalizing pending with
  | nil => exact scan_bare h pending
  | cons x xs ih =>
    rw [List.cons_append, scan, scan]
    split
    · rw [ih, List.append_assoc]
      rfl
    · split
      · rw [ih, List.append_assoc]
      · split
        · rw [ih, List.append_assoc]
        · exact ih _

end Reaming.PathData
