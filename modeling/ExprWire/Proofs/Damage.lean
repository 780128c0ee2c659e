import ExprWire.Proofs.Checksum
import ExprWire.Proofs.Layout
/-!
Damaged containers. Whatever is sealed leads the checksum's register to one residue, and a change
within four bytes in a row leads it elsewhere; so no byte string that is read is four bytes or less
away from another one.
-/

namespace ExprWire

structure Bytes.Damaged (width : Nat) (bytes other : Bytes) : Prop where
  size : other.length = bytes.length
  different : other ≠ bytes
  confined : ∃ start, ∀ i, other[i]? ≠ bytes[i]? → start ≤ i ∧ i < start + width

namespace Bytes

variable {width : Nat} {bytes other : Bytes}

theorem Damaged.exists_window (damaged : Damaged width bytes other) :
    ∃ before window window' after, bytes = before ++ (window ++ after) ∧
      other = before ++ (window' ++ after) ∧ window.length = window'.length ∧
      window.length ≤ width ∧ window ≠ window' := by
  obtain ⟨size, different, start, confined⟩ := damaged
  have same {i : Nat} (outside : i < start ∨ start + width ≤ i) : other[i]? = bytes[i]? := by
    by_cases equal : other[i]? = bytes[i]?
    · exact equal
    · have := confined i equal
      omega
  have before : other.take start = bytes.take start := by
    apply List.ext_getElem?
    intro i
    rw [List.getElem?_take, List.getElem?_take]
    by_cases inside : i < start
    · rw [if_pos inside, if_pos inside, same (.inl inside)]
    · rw [if_neg inside, if_neg inside]
  have after : other.drop (start + width) = bytes.drop (start + width) := by
    apply List.ext_getElem?
    intro i
    rw [List.getElem?_drop, List.getElem?_drop, same (.inr (Nat.le_add_right _ _))]
  have split (bytes : Bytes) : bytes = bytes.take start ++
      ((bytes.drop start).take width ++ bytes.drop (start + width)) := by
    rw [← List.drop_drop, List.take_append_drop, List.take_append_drop]
  have other_eq := split other
  rw [before, after] at other_eq
  refine ⟨_, _, _, _, split bytes, other_eq, ?_, ?_, fun equal => different ?_⟩
  · rw [List.length_take, List.length_take, List.length_drop, List.length_drop, size]
  · exact List.length_take_le _ _
  · rw [other_eq, ← equal, ← split bytes]

end Bytes

namespace Container

theorem residue_sealed (body : Bytes) :
    (sealed body).foldl Crc32.step 0xffffffff = Crc32.residue :=
  (Crc32.checksum_eq_iff (length_trailer _)).mp (ofLittleEndian_trailer _).symm

theorem not_sealed_of_damaged {bytes other : Bytes} (closed : ∃ body, bytes = sealed body)
    (damaged : Bytes.Damaged 4 bytes other) : ¬∃ body, other = sealed body := by
  rintro ⟨body', sealed'⟩
  rcases closed with ⟨body, sealed⟩
  rcases damaged.exists_window with ⟨before, window, window', after, whole, whole', size, short,
    different⟩
  apply Crc32.foldl_step_ne 0xffffffff before after size short different
  rw [← whole, ← whole', sealed, sealed', residue_sealed, residue_sealed]

/-- A byte string that is read is refused after any change within four bytes in a row, wherever
these stand. -/
theorem damage_detected {bytes other : Bytes} {container : Container}
    (accepted : Container.read bytes = .ok container) (damaged : Bytes.Damaged 4 bytes other) :
    ∃ fault, Container.read other = .error (.fault fault) ∧ fault.status = .invalidArgument := by
  by_cases closed : ∃ body, bytes = sealed body
  · exact read_unsealed (not_sealed_of_damaged closed damaged)
  · rcases read_unsealed closed with ⟨fault, refused, -⟩
    exact absurd (refused.symm.trans accepted) nofun

theorem damage_detected_straddling :
    let bytes : Bytes := [0x44, 0x41, 0x47, 0x57, 1, 0, 1, 5, 0, 172, 64, 178, 81]
    let other : Bytes := [0x44, 0x41, 0x47, 0x57, 1, 0, 1, 5, 1, 172, 65, 179, 81]
    Container.read bytes = .ok ⟨some 1, [], [5], []⟩ ∧ Bytes.Damaged 4 bytes other ∧
      ∃ fault, Container.read other = .error (.fault fault) ∧ fault.status = .invalidArgument := by
  intro bytes other
  have accepted : Container.read bytes = .ok ⟨some 1, [], [5], []⟩ := by
    have closed : bytes = sealed [1, 0, 1, 5, 0] := by decide +kernel
    rw [closed, read_sealed]
    rfl
  have damaged : Bytes.Damaged 4 bytes other := by
    have near : ∀ i < 13, other[i]? ≠ bytes[i]? → 8 ≤ i ∧ i < 8 + 4 := by decide
    refine ⟨rfl, by decide, 8, fun i different => ?_⟩
    by_cases inside : i < 13
    · exact near i inside different
    · have far : 13 ≤ i := Nat.not_lt.mp inside
      exact absurd ((List.getElem?_eq_none far).trans (List.getElem?_eq_none far).symm) different
  exact ⟨accepted, damaged, damage_detected accepted damaged⟩

end Container

end ExprWire
