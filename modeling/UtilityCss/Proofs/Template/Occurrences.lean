import UtilityCss.Proofs.Template.Tokens
import UtilityCss.Proofs.ClassName.CanonicalText
import UtilityCss.Template.Occurrence
import UtilityCss.ClassName.Defaults

/-!
# What is found in a template

The class names that a template is reported to hold are those of its tokens, one after the other:
each with the place of its token, and for each token one candidate for every canonical text.
-/
namespace UtilityCss

open Text

namespace Candidate

theorem readDistinct_sublist (r : Registry) (raw : Text) :
    (readDistinct r raw).Sublist (readAll r raw) :=
  distinctOn_sublist write _

end Candidate

namespace Occurrence

/-- What is found in a template for one of its tokens: readings of what stands there, in the order
in which they are read, and for each canonical text the first reading that is written so. -/
structure Reports (r : Registry) (content : Text) (token : Token) (found : List Occurrence) :
    Prop where
  slice : content.IsSlice token.start token.stop token.text
  place : ∀ o ∈ found, o.start = token.start ∧ o.stop = token.stop ∧ o.candidate.raw = token.text
  order : (found.map candidate).Sublist (Candidate.readAll r token.text)
  first : ∀ o ∈ found, (Candidate.readAll r token.text).find? (fun c =>
    c.write = o.candidate.write) = some o.candidate
  texts : found.map (fun o => o.candidate.write) = Candidate.canonicalTexts r token.text
  distinct : Candidate.canonicalTexts r token.text =
    ((Candidate.readAll r token.text).map Candidate.write).eraseDups
  nodup : (found.map fun o => o.candidate.write).Nodup

theorem map_candidate_ofToken (r : Registry) (token : Token) :
    (ofToken r token).map candidate = Candidate.readDistinct r token.text := by
  rw [ofToken, List.map_map]
  exact List.map_id _

theorem map_write_ofToken (r : Registry) (token : Token) :
    (ofToken r token).map (fun o => o.candidate.write) = Candidate.canonicalTexts r token.text := by
  rw [Candidate.canonicalTexts_eq_map_write, ← map_candidate_ofToken, List.map_map]
  rfl

theorem candidate_mem_of_mem_ofToken {r : Registry} {token : Token} {o : Occurrence}
    (h : o ∈ ofToken r token) : o.candidate ∈ Candidate.readDistinct r token.text := by
  rw [← map_candidate_ofToken]
  exact List.mem_map_of_mem h

theorem place_of_mem_ofToken {r : Registry} {token : Token} {o : Occurrence}
    (h : o ∈ ofToken r token) : o.start = token.start ∧ o.stop = token.stop := by
  obtain ⟨c, -, rfl⟩ := List.mem_map.mp h
  exact ⟨rfl, rfl⟩

theorem reports_ofToken {r : Registry} {content : Text} {token : Token}
    (h : token ∈ Token.all content) : Reports r content token (ofToken r token) where
  slice := Token.isSlice_of_mem_all h
  place := by
    intro o ho
    obtain ⟨hstart, hstop⟩ := place_of_mem_ofToken ho
    have hmem := (Candidate.readDistinct_sublist ..).subset (candidate_mem_of_mem_ofToken ho)
    exact ⟨hstart, hstop, Candidate.raw_eq_of_mem_readAll hmem⟩
  order := map_candidate_ofToken r token ▸ Candidate.readDistinct_sublist ..
  first := fun _ ho => find?_of_mem_distinctOn (candidate_mem_of_mem_ofToken ho)
  texts := map_write_ofToken r token
  distinct := Candidate.canonicalTexts_eq_eraseDups ..
  nodup := by
    rw [map_write_ofToken, Candidate.canonicalTexts_eq_eraseDups]
    exact nodup_eraseDups _

theorem pairwise_start (r : Registry) (content : Text) :
    (all r content).Pairwise fun a b => a.start ≤ b.start := by
  rw [all, List.pairwise_flatMap]
  constructor
  · intro token _
    refine List.pairwise_of_forall_mem_list fun a ha b hb => ?_
    rw [(place_of_mem_ofToken ha).1, (place_of_mem_ofToken hb).1]
  · refine (Token.pairwise_all content).imp fun hlt a ha b hb => ?_
    rw [(place_of_mem_ofToken ha).1, (place_of_mem_ofToken hb).1]
    exact (Nat.le_add_right _ _).trans hlt.le

/-- What is found in a template is what its tokens report, in their order, so no start comes before
an earlier one. -/
theorem all_reports_tokens (r : Registry) (content : Text) :
    (∃ groups, all r content = groups.flatten ∧
      List.Forall₂ (Reports r content) (Token.all content) groups) ∧
      (all r content).Pairwise fun a b => a.start ≤ b.start := by
  refine ⟨⟨(Token.all content).map (ofToken r), List.flatMap_def .., ?_⟩, pairwise_start r content⟩
  rw [List.forall₂_map_right_iff, List.forall₂_same]
  exact fun token htoken => reports_ofToken htoken

example : (all .builtIn "é<b class='flex hover:p-4'>".toList).map (fun o => (o.start, o.stop)) =
    [(12, 16), (17, 26)] := by
  decide +kernel

end Occurrence
end UtilityCss
