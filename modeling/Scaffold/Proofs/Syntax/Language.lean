import Scaffold.Proofs.Syntax.Constructs

/-! # The constructs of the language

Only constructs have children: no token, no comment and no name of a value. The body of a method is a
block, which has its two braces.
-/

namespace Scaffold.Syntax

open Scaffold.Text

/-- A tree of this kind may have children: it is neither a token, nor a comment, nor the name of a value. -/
@[simp]
def Kind.isComposite (kind : Kind) : Bool :=
  kind.isNamed && kind ≠ .comment && kind ≠ .identifier && kind ≠ .shorthandPropertyIdentifier

attribute [simp] Kind.isNamed

/-! ## The constructs in a rule -/

section Rules

variable {σ : Type} {forms : Kind → Rule σ → Prop} {tails : Kind → Prop}

@[simp]
theorem all_seqs {rules : List (Rule σ)} : (Rule.seqs rules).All forms tails ↔ ∀ rule ∈ rules, rule.All forms tails := by
  induction rules with
  | nil => simp [Rule.seqs]
  | cons head later iff =>
    cases later with
    | nil => simp [Rule.seqs]
    | cons next others => simp only [Rule.seqs, Rule.All, List.forall_mem_cons, iff]

@[simp]
theorem all_alts {rules : List (Rule σ)} : (Rule.alts rules).All forms tails ↔ ∀ rule ∈ rules, rule.All forms tails := by
  induction rules with
  | nil => simp [Rule.alts]
  | cons head later iff =>
    cases later with
    | nil => simp [Rule.alts]
    | cons next others => simp only [Rule.alts, Rule.All, List.forall_mem_cons, iff]

@[simp]
theorem all_modified {modifiers : List (Rule σ)} {rule : Rule σ} :
    (Rule.modified modifiers rule).All forms tails ↔
      (∀ modifier ∈ modifiers, modifier.All forms tails) ∧ rule.All forms tails := by
  induction modifiers with
  | nil => simp [Rule.modified]
  | cons head later iff =>
    simp only [Rule.modified, Rule.All, iff, List.forall_mem_cons]
    constructor
    · rintro ⟨⟨own, later, inner⟩, -⟩
      exact ⟨⟨own, later⟩, inner⟩
    · rintro ⟨⟨own, later⟩, inner⟩
      exact ⟨⟨own, later, inner⟩, later, inner⟩

@[simp]
theorem all_ite {condition : Prop} [Decidable condition] {first second : Rule σ} :
    (if condition then first else second).All forms tails ↔
      (condition → first.All forms tails) ∧ (¬ condition → second.All forms tails) := by
  split <;> simp [*]

@[simp]
theorem allIn_append {first second : List (Tail σ)} :
    Tail.AllIn forms tails (first ++ second) ↔ Tail.AllIn forms tails first ∧ Tail.AllIn forms tails second := by
  induction first with
  | nil => simp
  | cons head later iff =>
    obtain ⟨accepts, kind, role, body⟩ := head
    simp only [List.cons_append, Tail.AllIn, iff, and_assoc]

@[simp]
theorem allIn_flatMap {α : Type} {items : List α} {make : α → List (Tail σ)} :
    Tail.AllIn forms tails (items.flatMap make) ↔ ∀ item ∈ items, Tail.AllIn forms tails (make item) := by
  induction items with
  | nil => simp
  | cons head later iff => simp only [List.flatMap_cons, allIn_append, iff, List.forall_mem_cons]

@[simp]
theorem allIn_ite {condition : Prop} [Decidable condition] {others : List (Tail σ)} :
    Tail.AllIn forms tails (if condition then others else []) ↔ (condition → Tail.AllIn forms tails others) := by
  split <;> simp [*]

variable {rule : Rule σ} {text : String}

@[simp]
theorem all_mark {continuations : List String} : (Rule.mark text continuations : Rule σ).All forms tails := trivial

@[simp]
theorem all_sign : (Rule.sign text : Rule σ).All forms tails := trivial

@[simp]
theorem all_word : (Rule.word text : Rule σ).All forms tails := trivial

@[simp]
theorem all_words {texts : List String} : (Rule.words texts : Rule σ).All forms tails := by simp [Rule.words]

@[simp]
theorem all_name {kind : Kind} {reserved : List String} : (Rule.name kind reserved : Rule σ).All forms tails := trivial

@[simp]
theorem all_opt : (Rule.opt rule).All forms tails ↔ rule.All forms tails := by simp [Rule.opt]

@[simp]
theorem all_listed : (Rule.listed rule).All forms tails ↔ rule.All forms tails := by simp [Rule.listed]

@[simp]
theorem all_series : (Rule.series rule).All forms tails ↔ rule.All forms tails := by simp [Rule.series]

@[simp]
theorem all_trailing : (Rule.trailing rule).All forms tails ↔ rule.All forms tails := by simp [Rule.trailing]

@[simp]
theorem all_holed : (Rule.holed rule).All forms tails ↔ rule.All forms tails := by simp [Rule.holed]

@[simp]
theorem all_parens : (Rule.parens rule).All forms tails ↔ rule.All forms tails := by simp [Rule.parens]

@[simp]
theorem all_brackets : (Rule.brackets rule).All forms tails ↔ rule.All forms tails := by simp [Rule.brackets]

@[simp]
theorem all_braces : (Rule.braces rule).All forms tails ↔ rule.All forms tails := by simp [Rule.braces]

@[simp]
theorem all_barring {excluded : Rule σ} : (Rule.barring excluded rule).All forms tails ↔ rule.All forms tails := by
  simp [Rule.barring]

end Rules

/-! ## The constructs of the language -/

/-- What is asked of the constructs and tails of the language: any composite kind will do, except that a
method and an array are to have their own forms. -/
structure Admits (forms : Kind → Shape → Prop) (tails : Kind → Prop) : Prop where
  construct : ∀ kind body, kind.isComposite = true → kind ≠ .methodDefinition → kind ≠ .array → forms kind body
  tail : ∀ kind, kind.isComposite = true → kind ≠ .methodDefinition → kind ≠ .array → tails kind
  method : ∀ modifier reserved, modifier = Rule.word ∨ modifier = Shape.modifier →
    (Shape.methodDefinition modifier reserved).All forms tails
  array : Shape.array.All forms tails

namespace Shape

variable {forms : Kind → Shape → Prop} {tails : Kind → Prop}

@[simp]
theorem all_goesOn {ending : Option StatementEnd} : (goesOn ending).All forms tails := by
  cases ending <;> trivial

@[simp]
theorem all_semicolon {ending : StatementEnd} : (semicolon ending).All forms tails := by
  simp [semicolon]

@[simp]
theorem all_soft {ending : StatementEnd} {text : String} : (soft ending text).All forms tails := by
  simp [soft]

@[simp]
theorem all_identifier : identifier.All forms tails := trivial

@[simp]
theorem all_propertyIdentifier : propertyIdentifier.All forms tails := trivial

@[simp]
theorem all_typeIdentifier : typeIdentifier.All forms tails := trivial

@[simp]
theorem all_stringLiteral : stringLiteral.All forms tails := trivial

@[simp]
theorem all_assign : assign.All forms tails := trivial

@[simp]
theorem all_type {place : TypePlace} : (type place).All forms tails := trivial

@[simp]
theorem all_expression {place : Place} : (expression place).All forms tails := trivial

@[simp]
theorem all_expressions {place : Place} : (expressions place).All forms tails := trivial

@[simp]
theorem all_initializer {place : Place} : (initializer place).All forms tails := by
  simp [initializer]

@[simp]
theorem all_ahead {rule : Shape} : (ahead rule).All forms tails := trivial

@[simp]
theorem all_binding : binding.All forms tails := by
  simp [binding]

@[simp]
theorem all_block : block.All forms tails := trivial

@[simp]
theorem all_statement : statement.All forms tails := trivial

@[simp]
theorem all_modifier {text : String} : (modifier text).All forms tails := all_soft

@[simp]
theorem all_typeMarker : typeMarker.All forms tails := all_words

variable (admits : Admits forms tails)
include admits

/-! ### Types -/

theorem all_typeAscription (place : TypePlace) : (typeAscription place).All forms tails := by
  simp [typeAscription, admits.construct]

theorem all_importedType : importedType.All forms tails := by
  simp [importedType, admits.construct, admits.tail]

theorem all_typeRule (place : TypePlace) : (typeRule place).All forms tails := by
  simp [typeRule, typeOperand, functionType, constructorType, asserted, typePredicate, subject,
    all_importedType admits, admits.construct, admits.tail]

theorem all_namedType (place : TypePlace) : (namedType place).All forms tails := by
  simp [namedType, admits.tail]

theorem all_simpleType (place : TypePlace) : (simpleType place).All forms tails := by
  simp [simpleType, atomicType, queried, tupleMember, templateType, all_namedType admits, all_importedType admits,
    all_typeAscription admits, admits.construct, admits.tail]

theorem all_typeArguments (inCall : Bool) : (typeArguments inCall).All forms tails := by
  simp [typeArguments, admits.construct]

theorem all_typeParameters : typeParameters.All forms tails := by
  simp [typeParameters, admits.construct]

theorem all_propertyName (reserved : List String) : (propertyName reserved).All forms tails := by
  simp [propertyName, admits.construct]

theorem all_indexSignature (place : TypePlace) : (indexSignature place).All forms tails := by
  simp [indexSignature, all_typeAscription admits, admits.construct]

theorem all_accessibility : accessibility.All forms tails := by
  simp [accessibility, admits.construct]

theorem all_typeMembers : typeMembers.All forms tails := by
  simp [typeMembers, typeMember, all_accessibility admits, all_indexSignature admits, all_typeAscription admits,
    admits.construct]

/-! ### Functions -/

theorem all_destructuring (assigned : Bool) : (destructuring assigned).All forms tails := by
  simp [destructuring, admits.construct]

theorem all_parameters : parameters.All forms tails := by
  simp [parameters, parameter, overrideModifier, all_accessibility admits,
    all_typeAscription admits, admits.construct]

theorem all_resultAscription (place : TypePlace) : (resultAscription place).All forms tails := by
  simp [resultAscription, asserted, typePredicate, subject, all_typeAscription admits, admits.construct]

theorem all_signature (place : TypePlace) : (signature place).All forms tails := by
  simp [signature, all_resultAscription admits]

theorem all_functionExpression : functionExpression.All forms tails := by
  simp [functionExpression, admits.construct]

theorem all_functionDeclaration : functionDeclaration.All forms tails := by
  simp [functionDeclaration, admits.construct]

theorem all_arrowFunction (place : Place) : (arrowFunction place).All forms tails := by
  simp [arrowFunction, all_resultAscription admits, admits.construct]

/-! ### Expressions -/

theorem all_spread : spread.All forms tails := by
  simp [spread, admits.construct]

theorem all_parenthesized : parenthesized.All forms tails := by
  simp [parenthesized, all_typeAscription admits, admits.construct]

theorem all_arguments : arguments.All forms tails := by
  simp [arguments, all_spread admits, admits.construct]

theorem all_template : template.All forms tails := by
  simp [template, admits.construct]

theorem all_object : object.All forms tails := by
  simp [object, all_spread admits, admits.method, admits.construct]

theorem allIn_accessTails : Tail.AllIn forms tails accessTails := by
  simp [accessTails, callTypes, admits.tail]

theorem allIn_assertionTails (place : Place) : Tail.AllIn forms tails (assertionTails place) := by
  simp [assertionTails, nonNullTail, admits.tail]

theorem allIn_operatorTails (place : Place) (binding : Nat) : Tail.AllIn forms tails (operatorTails place binding) := by
  simp [operatorTails, binaryOperators, admits.tail]

theorem all_expressionRule (place : Place) (binding : Nat) (assertions : Bool) :
    (expressionRule place binding assertions).All forms tails := by
  simp [expressionRule, callTail, typedCallTail, callTypes, allIn_accessTails admits, allIn_assertionTails admits,
    allIn_operatorTails admits, admits.tail]

theorem all_expressionsRule (place : Place) : (expressionsRule place).All forms tails := by
  simp [expressionsRule, admits.tail]

theorem all_targetRule : targetRule.All forms tails := by
  simp [targetRule, callTail, nonNullTail, allIn_accessTails admits, admits.tail]

theorem all_operandRule (place : Place) : (operandRule place).All forms tails := by
  simp [operandRule, newExpression, destructuringAssignment, callTypes, all_arrowFunction admits,
    all_functionExpression admits, all_parenthesized admits, allIn_accessTails admits, admits.construct]

theorem all_typeAssertion (place : Place) : (typeAssertion place).All forms tails := by
  simp [typeAssertion, admits.construct]

/-! ### Classes -/

theorem all_decorator : decorator.All forms tails := by
  simp [decorator, callTypes, all_parenthesized admits, admits.construct, admits.tail]

theorem all_classMember : classMember.All forms tails := by
  simp [classMember, abstractMethodSignature, methodSignature, field, memberAccess, memberOverride, memberName,
    all_indexSignature admits, all_typeAscription admits, admits.method, admits.construct]

theorem all_classRest : classRest.All forms tails := by
  simp [classRest, extendsClause, implementsClause, callTail, typedCallTail, callTypes, all_classMember admits,
    allIn_accessTails admits, allIn_assertionTails admits, admits.construct, admits.tail]

/-! ### Modules -/

theorem all_nestedName : nestedName.All forms tails := by
  simp [nestedName, admits.tail]

theorem all_importStatement : importStatement.All forms tails := by
  simp [importStatement, importClause, namespaceImport, namedImports, importSpecifier, specifierMarker, moduleName,
    localName, fromClause, admits.construct]

theorem all_importAlias : importAlias.All forms tails := by
  simp [importAlias, localName, all_nestedName admits, admits.construct]

theorem all_exportStatement : exportStatement.All forms tails := by
  simp [exportStatement, exportClause, moduleName, fromClause, all_importAlias admits, admits.construct]

/-! ### Statements -/

theorem all_declaratorsRule (first : Bool) : (declaratorsRule first).All forms tails := by
  simp [declaratorsRule, all_typeAscription admits, admits.construct]

theorem all_declaration : declaration.All forms tails := by
  simp [declaration, classDeclaration, enumDeclaration, lexicalDeclaration, variableDeclaration,
    namespaceDeclaration, typeAlias, interfaceDeclaration, ambientDeclaration, className,
    all_functionDeclaration admits, all_importAlias admits, all_nestedName admits, all_namedType admits,
    admits.construct]

theorem all_blockRule : blockRule.All forms tails := by
  simp [blockRule, admits.construct]

theorem all_statementRule : statementRule.All forms tails := by
  simp [statementRule, ifStatement, switchStatement, forStatement, forInStatement, tryStatement, jump, clause,
    labeledStatement, expressionStatement, lexicalDeclaration, variableDeclaration, all_exportStatement admits,
    all_importStatement admits, all_parenthesized admits, all_typeAscription admits,
    admits.construct]

/-! ### Markup -/

theorem all_markupElement : markupElement.All forms tails := by
  simp [markupElement, elementName, tagName, qualifiedName, markupExpression, markupAttribute, all_spread admits,
    admits.construct, admits.tail]

/-- All constructs of the language are of the forms that are asked for. -/
theorem all_rule (dialect : Dialect) (symbol : Symbol) : (dialect.rule symbol).All forms tails := by
  cases symbol with
  | statement => exact all_statementRule admits
  | block => exact all_blockRule admits
  | declaration => exact all_declaration admits
  | declarators first => exact all_declaratorsRule admits first
  | expressions place => exact all_expressionsRule admits place
  | expression place binding assertions => exact all_expressionRule admits place binding assertions
  | operand place => exact all_operandRule admits place
  | target => exact all_targetRule admits
  | array => exact admits.array
  | object => exact all_object admits
  | template => exact all_template admits
  | arguments => exact all_arguments admits
  | destructuring assigned => exact all_destructuring admits assigned
  | parameters => exact all_parameters admits
  | signature place => exact all_signature admits place
  | propertyName reserved => exact all_propertyName admits reserved
  | type place => exact all_typeRule admits place
  | simpleType place => exact all_simpleType admits place
  | typeArguments inCall => exact all_typeArguments admits inCall
  | typeParameters => exact all_typeParameters admits
  | typeMembers => exact all_typeMembers admits
  | classMembers => exact all_classRest admits
  | decorator => exact all_decorator admits
  | angled place =>
    cases dialect with
    | plain => exact all_typeAssertion admits place
    | markup => exact all_markupElement admits
  | markupElement => exact all_markupElement admits

end Shape

end Scaffold.Syntax
