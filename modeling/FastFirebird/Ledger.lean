import FastFirebird.Histories
import Mathlib.Data.List.Perm.Basic
import Mathlib.Data.List.Nodup

/-! A ledger of things that are handed out, used and given back. It breaks off at the first use, or
return, of a thing that is not out. -/
namespace FastFirebird

variable {ρ : Type} [DecidableEq ρ]

inductive Deed (ρ : Type) where
  | gained (r : ρ)
  | used (r : ρ)
  | dropped (r : ρ)
  | aside

/-- The things that are out, behind one more deed. -/
def settle (out : List ρ) : Deed ρ → Option (List ρ)
  | .gained r => some (r :: out)
  | .used r => if r ∈ out then some out else none
  | .dropped r => if r ∈ out then some (out.erase r) else none
  | .aside => some out

variable {ε : Type} {deed : ε → Deed ρ} {log : List ε} {e : ε} {owned owned' : List ρ} {r : ρ}

/-- The ledger of a history, newest event first, by the deed each event is. -/
def ledger (deed : ε → Deed ρ) (log : List ε) : Option (List ρ) :=
  since (fun out e => settle out (deed e)) [] 0 log

theorem ledger_cons : ledger deed (e :: log) = (ledger deed log).bind (settle · (deed e)) :=
  since_cons (Nat.zero_le _)

theorem ledger_aside (h : deed e = .aside) : ledger deed (e :: log) = ledger deed log := by
  refine since_skip (Nat.zero_le _) fun out => ?_
  rw [h]
  rfl

/-- The history fits, and what is out is just what its owners hold: every thing with one of them, once. -/
def Owns (deed : ε → Deed ρ) (log : List ε) (owned : List ρ) : Prop :=
  ∃ out, ledger deed log = some out ∧ out.Nodup ∧ out.Perm owned

namespace Owns

theorem isSome (h : Owns deed log owned) : (ledger deed log).isSome := by
  obtain ⟨out, hout, -⟩ := h
  rw [hout]
  rfl

theorem nodup (h : Owns deed log owned) : owned.Nodup := by
  obtain ⟨out, -, hnodup, hperm⟩ := h
  exact hperm.nodup_iff.mp hnodup

/-- A thing may pass from one owner to another. -/
theorem perm (h : Owns deed log owned) (hp : owned.Perm owned') : Owns deed log owned' := by
  obtain ⟨out, hout, hnodup, hperm⟩ := h
  exact ⟨out, hout, hnodup, hperm.trans hp⟩

theorem aside (h : Owns deed log owned) (he : deed e = .aside) : Owns deed (e :: log) owned := by
  obtain ⟨out, hout, hnodup, hperm⟩ := h
  exact ⟨out, (ledger_aside he).trans hout, hnodup, hperm⟩

theorem gained (h : Owns deed log owned) (he : deed e = .gained r) (hr : r ∉ owned) :
    Owns deed (e :: log) (r :: owned) := by
  obtain ⟨out, hout, hnodup, hperm⟩ := h
  refine ⟨r :: out, ?_, ?_, hperm.cons r⟩
  · rw [ledger_cons, hout, he]
    rfl
  · exact List.nodup_cons.mpr ⟨fun hmem => hr (hperm.mem_iff.mp hmem), hnodup⟩

theorem used (h : Owns deed log owned) (he : deed e = .used r) (hr : r ∈ owned) :
    Owns deed (e :: log) owned := by
  obtain ⟨out, hout, hnodup, hperm⟩ := h
  refine ⟨out, ?_, hnodup, hperm⟩
  rw [ledger_cons, hout, he]
  exact if_pos (hperm.mem_iff.mpr hr)

theorem dropped (h : Owns deed log (r :: owned)) (he : deed e = .dropped r) :
    Owns deed (e :: log) owned := by
  obtain ⟨out, hout, hnodup, hperm⟩ := h
  refine ⟨out.erase r, ?_, hnodup.erase r, ?_⟩
  · rw [ledger_cons, hout, he]
    exact if_pos (hperm.mem_iff.mpr List.mem_cons_self)
  · have herase := hperm.erase r
    rwa [List.erase_cons_head] at herase

end Owns
end FastFirebird
