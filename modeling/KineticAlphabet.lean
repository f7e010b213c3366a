import KineticAlphabet.Main
import KineticAlphabet.Pictograph.Record
import KineticAlphabet.Selection
import KineticAlphabet.Proofs.Grammar
import KineticAlphabet.Proofs.Catalog
import KineticAlphabet.Proofs.Symmetry
import KineticAlphabet.Proofs.Joining
import KineticAlphabet.Proofs.Building
import KineticAlphabet.Proofs.Soundness
import KineticAlphabet.Proofs.Scripting
import KineticAlphabet.Proofs.Exclusion
import KineticAlphabet.Proofs.Completeness
import KineticAlphabet.Proofs.Repetition
import KineticAlphabet.Proofs.Tracing
import KineticAlphabet.Proofs.Prolonging
import KineticAlphabet.Proofs.Difficulty
import KineticAlphabet.Proofs.Exhaustion
import KineticAlphabet.Proofs.Labelling
import KineticAlphabet.Proofs.Locking
import KineticAlphabet.Proofs.Typing
import KineticAlphabet.Proofs.Validity
import KineticAlphabet.Proofs.Invariance
import KineticAlphabet.Proofs.Editing
import KineticAlphabet.Proofs.Consistency
import KineticAlphabet.Proofs.Transposing
import KineticAlphabet.Proofs.Rounding
import KineticAlphabet.Proofs.Truncating
import KineticAlphabet.Proofs.Counting
import KineticAlphabet.Proofs.Numerals
import KineticAlphabet.Proofs.Writing
import KineticAlphabet.Proofs.Indenting
import KineticAlphabet.Proofs.Exactness
import KineticAlphabet.Proofs.Filling
import KineticAlphabet.Proofs.Records
import KineticAlphabet.Proofs.Revising
import KineticAlphabet.Proofs.Roundtrip
import KineticAlphabet.Proofs.Period
import KineticAlphabet.Proofs.Cycle
import KineticAlphabet.Proofs.Sorting
import KineticAlphabet.Proofs.Grouping
import KineticAlphabet.Proofs.Sectioning
import KineticAlphabet.Proofs.Relevance
import KineticAlphabet.Proofs.Classification
import KineticAlphabet.Proofs.Agreement
import KineticAlphabet.Proofs.Ranking
import KineticAlphabet.Proofs.Skipping
import KineticAlphabet.Proofs.Reversing
import KineticAlphabet.Proofs.Trimming
import KineticAlphabet.Proofs.Blending
import KineticAlphabet.Proofs.Nearness
import KineticAlphabet.Proofs.Literals
import KineticAlphabet.Proofs.Turning
import KineticAlphabet.Proofs.Placing
import KineticAlphabet.Proofs.Reading
import KineticAlphabet.Proofs.Octagon
import KineticAlphabet.Proofs.Winding
import KineticAlphabet.Proofs.Overriding
