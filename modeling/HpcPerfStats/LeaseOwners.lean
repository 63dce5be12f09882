/-
# Owner tokens (`make_lease_owner_token`, `parse_lease_owner`)

A claim carries the token of its owner: a nonce, the host, the boot and the process, with a colon between them.
The names of the host and of the boot lose their colons first, so that the parts can be told apart again.

* `parseLeaseOwner_make`: a token is read back as it was made;
* `ownerIsDead_make_iff`: the owner counts as dead exactly on its own host and boot and when its process is gone.
-/
import HpcPerfStats.JobStore
import HpcPerfStats.TokenText

namespace JobStore

open PyText TokenText

/-- `str(name or "unknown").replace(":", "_").replace("|", "_")`. -/
def tokenField (name : String) : String := tokenPart (if name = "" then "unknown" else name)

/-- `make_lease_owner_token`; `nonce` is what `secrets.token_hex` returns. -/
def makeLeaseOwnerToken (nonce hostname bootId : String) (pid : ℤ) : String :=
  nonce ++ ledBy ':' [tokenField hostname, tokenField bootId, toString pid]

/-- The token is the one of the format string. -/
example : makeLeaseOwnerToken "0f" "login:1" "" 42 = "0f:login_1:unknown:42" := by decide +kernel

theorem colon_not_mem_tokenPart (text : String) : ':' ∉ (tokenPart text).toList := by
  unfold tokenPart
  rw [String.toList_ofList, List.mem_map]
  rintro ⟨c, -, hc⟩
  split_ifs at hc with hsep
  · exact absurd hc (by decide)
  · exact hsep (Or.inl hc)

theorem colon_not_mem_toString (n : ℤ) : ':' ∉ (toString n).toList := by
  have hdigits : ':' ∉ (toString n.natAbs).toList := fun h => absurd (isDigit_of_mem_toString h) (by decide)
  rw [toList_toString_int]
  split_ifs
  · rw [List.mem_cons, not_or]
    exact ⟨by decide, hdigits⟩
  · exact hdigits

theorem tokenField_ne_empty (name : String) : tokenField name ≠ "" := by
  unfold tokenField tokenPart
  intro h
  rw [String.ofList_eq_empty_iff, List.map_eq_nil_iff, String.toList_eq_nil_iff] at h
  split_ifs at h with hname
  · exact absurd h (by decide)
  · exact hname h

/-- **A token is read back as it was made.** -/
theorem parseLeaseOwner_make {nonce : String} (hnonce : ':' ∉ nonce.toList) (hostname bootId : String) (pid : ℤ) :
    parseLeaseOwner (makeLeaseOwnerToken nonce hostname bootId pid) =
      ⟨nonce, tokenField hostname, tokenField bootId, some pid⟩ := by
  have hparts : splitSep ':' (makeLeaseOwnerToken nonce hostname bootId pid) =
      [nonce, tokenField hostname, tokenField bootId, toString pid] := by
    refine splitSep_append_ledBy hnonce ?_
    intro part hpart
    rw [List.mem_cons, List.mem_cons, List.mem_singleton] at hpart
    rcases hpart with rfl | rfl | rfl
    · exact colon_not_mem_tokenPart _
    · exact colon_not_mem_tokenPart _
    · exact colon_not_mem_toString pid
  unfold parseLeaseOwner
  rw [hparts]
  simpa using pyInt_toString_int pid

/-- **When the owner of a token counts as dead.** -/
theorem ownerIsDead_make_iff {nonce : String} (hnonce : ':' ∉ nonce.toList) (hostname bootId : String) (pid : ℤ)
    (here : Local) :
    ownerIsDead (makeLeaseOwnerToken nonce hostname bootId pid) here = true ↔
      tokenField hostname = tokenPart here.hostname ∧ tokenField bootId = tokenPart here.bootId ∧
        here.alive pid = false := by
  unfold ownerIsDead leaseOwnerIsLocallyEvaluable
  rw [parseLeaseOwner_make hnonce]
  simp [tokenField_ne_empty, and_assoc]

/-- The process is gone, on a host whose name has a colon. -/
theorem ownerIsDead_make_gone :
    ownerIsDead (makeLeaseOwnerToken "0f" "login:1" "b0" 42) ⟨"login:1", "b0", fun pid => pid != 42⟩ = true := by
  refine (ownerIsDead_make_iff (by decide) "login:1" "b0" 42 _).mpr ⟨?_, ?_, rfl⟩
  · decide +kernel
  · decide +kernel

end JobStore
