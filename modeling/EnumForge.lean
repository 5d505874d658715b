import EnumForge.Main
import EnumForge.Proofs.AppEnum.Comments
import EnumForge.Proofs.AppEnum.Conforming
import EnumForge.Proofs.AppEnum.Extending
import EnumForge.Proofs.AppEnum.Front
import EnumForge.Proofs.AppEnum.Mapping
import EnumForge.Proofs.AppEnum.Rewriting
import EnumForge.Proofs.Checked.Safety
import EnumForge.Proofs.Diagnostic.Simultaneous
import EnumForge.Proofs.Expansion.Handover
import EnumForge.Proofs.Expansion.Registration
import EnumForge.Proofs.Grammar.Bounds
import EnumForge.Proofs.Grammar.Covering
import EnumForge.Proofs.Grammar.Placing
import EnumForge.Proofs.Token.Lines
import EnumForge.Proofs.Token.Sole
import EnumForge.Proofs.Token.Tiling
import EnumForge.Proofs.Tree.Kind
import EnumForge.Proofs.Trivia.Canonical
import EnumForge.Tree.Path
