import Mathlib.Data.List.Nodup
import Mathlib.Data.List.Perm.Basic
import Mathlib.Data.Nat.Notation

/-!
# Blocks that are allocated and freed

What an allocator has been asked for: the number of requests, the blocks that it has given and
those that have been given back. A block is named by the number of its request. Between two states
of the ledger, the blocks that are owned (`Owns`) are those that were given in the meantime and
have not been given back, each of the others having been given back once.
-/

namespace Miscellany

structure Ledger where
  requests : ℕ
  allocated : List ℕ
  freed : List ℕ
deriving DecidableEq

namespace Ledger

/-- A request that fails. -/
def refuse (h : Ledger) : Ledger := { h with requests := h.requests + 1 }

/-- A request that gives a block. -/
def grant (h : Ledger) : Ledger :=
  { h with requests := h.requests + 1, allocated := h.allocated ++ [h.requests] }

def free (h : Ledger) (a : ℕ) : Ledger := { h with freed := h.freed ++ [a] }

/-- Since `h₀`, the blocks that were given and not given back are the given ones. -/
def Owns (h₀ h : Ledger) (live : List ℕ) : Prop :=
  ∃ a f, h.allocated = h₀.allocated ++ a ∧ h.freed = h₀.freed ++ f ∧ a.Nodup ∧
    (f ++ live).Perm a ∧ ∀ x ∈ a, x < h.requests

namespace Owns

variable {h₀ h : Ledger} {live live' : List ℕ} {a : ℕ}

theorem refl (h : Ledger) : Owns h h [] :=
  ⟨[], [], (List.append_nil _).symm, (List.append_nil _).symm, List.nodup_nil, .refl _,
    fun _ hx => nomatch hx⟩

theorem perm (hown : Owns h₀ h live) (hperm : live.Perm live') : Owns h₀ h live' := by
  obtain ⟨a, f, halloc, hfreed, hnodup, hlive, hlt⟩ := hown
  exact ⟨a, f, halloc, hfreed, hnodup, (hperm.symm.append_left f).trans hlive, hlt⟩

theorem refuse (hown : Owns h₀ h live) : Owns h₀ h.refuse live := by
  obtain ⟨a, f, halloc, hfreed, hnodup, hlive, hlt⟩ := hown
  exact ⟨a, f, halloc, hfreed, hnodup, hlive, fun x hx => Nat.lt_succ_of_lt (hlt x hx)⟩

/-- The new block is none of those given before. -/
theorem grant (hown : Owns h₀ h live) : Owns h₀ h.grant (h.requests :: live) := by
  obtain ⟨a, f, halloc, hfreed, hnodup, hlive, hlt⟩ := hown
  refine ⟨a ++ [h.requests], f, ?_, hfreed, ?_, ?_, ?_⟩
  · rw [Ledger.grant, halloc, List.append_assoc]
  · rw [List.nodup_append]
    refine ⟨hnodup, List.nodup_singleton _, ?_⟩
    intro x hx y hy
    rw [List.mem_singleton.1 hy]
    exact Nat.ne_of_lt (hlt x hx)
  · exact (List.perm_middle.trans (hlive.cons _)).trans (List.perm_append_singleton _ _).symm
  · intro x hx
    rcases List.mem_append.1 hx with hx | hx
    · exact Nat.lt_succ_of_lt (hlt x hx)
    · rw [List.mem_singleton.1 hx]
      exact Nat.lt_succ_self _

theorem free (hown : Owns h₀ h (a :: live)) : Owns h₀ (h.free a) live := by
  obtain ⟨b, f, halloc, hfreed, hnodup, hlive, hlt⟩ := hown
  refine ⟨b, f ++ [a], halloc, ?_, hnodup, ?_, hlt⟩
  · rw [Ledger.free, hfreed, List.append_assoc]
  · rw [List.append_assoc]
    exact hlive

end Owns

end Ledger

end Miscellany
